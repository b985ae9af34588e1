import LineShell.Proofs.Reports

/-!
# The last number of a session

A session keeps the last number that it was answered with. There are two copies of it: the one of
the session, and the one of its commands, which every node of a tree writes on the way up. Here
the history is said first: which numbers the units of a line answer with in the running process, a
unit being a command or a pair of children, and that a line which cannot be read is answered with
2. The copies then follow the history, whatever the lines are.

## The model

* `unitNumbers` are the numbers that the units of a tree answer with, one after the other. It
  follows the tree and runs it: a serial pair has its left side run, and its right one if the
  number admits it; what happens in children is left out.
* `Shell.lineNumbers` is what a line adds to the history of a session, and `Shell.history` the
  history of lines that are run one after the other.
* `Shell.runEach` runs lines one after the other, whatever they answer, and gives their statuses.

## What is proved

* What a unit answers is the last number of the running process, and where it ends the session
  that number stays (`unit_commandLast`). So after a tree the last number is the last one that a
  unit answered with (`execute_commandLast`), by induction on the tree.
* After a line the last number of the session is the last one of its history
  (`Shell.runLine_sessionLast`), and a line that is not blank ends the session or answers with it
  (`Shell.runLine_answer`).
* The same of lines in a row follows by induction on them (`Shell.runEach_sessionLast`).

A line that is broken off by a failure answers with nothing, and has no place in a history.
-/

namespace LineShell

open Act

/-! ### Histories -/

/-- The number of a status, if it is one. -/
def Status.number? : Status → Option Int
  | .code n => some n
  | .terminate => none

/-- The last number of a history that begins with a given one. -/
def lastNumber (n : Int) (history : List Int) : Int := history.getLastD n

theorem lastNumber_append (n : Int) (xs ys : List Int) :
    lastNumber n (xs ++ ys) = lastNumber (lastNumber n xs) ys := by
  simp only [lastNumber, List.getLastD_eq_getLast?, List.getLast?_append]
  cases ys.getLast? <;> simp

/-- The history that begins with a number ends with the last one. -/
theorem getLast?_cons_eq_lastNumber (n : Int) (history : List Int) :
    (n :: history).getLast? = some (lastNumber n history) := by
  rw [List.getLast?_cons, lastNumber, List.getLastD_eq_getLast?]

/-- What a run answers, as a history. -/
def answered : EStateM.Result Failure Machine Status → List Int
  | .ok s _ => s.number?.toList
  | .error _ _ => []

/-- The numbers that the units of a tree answer with in the running process, one after the other. A
serial pair has its left side run, and then its right one if the number of the left one admits it;
anything else is a unit, so what happens in children is left out. -/
def unitNumbers (rules : Rules) : Tree → Int → Machine → List Int
  | .binary mark op l r, level, m =>
    let t := Tree.binary mark op l r
    if op.forks then answered (execute rules t level m)
    else
      unitNumbers rules l (level + 1) (t.told level m) ++
        match execute rules l (level + 1) (t.told level m) with
        | .ok (.code n) m₁ => if op.admits n then unitNumbers rules r (level + 1) m₁ else []
        | _ => []
  | t, level, m => answered (execute rules t level m)

/-! ### Trees -/

theorem runExternal_ne_terminate (c : Command) : Yields (· ≠ .terminate) (runExternal c) := by
  refine .behind _ fun r => ?_
  split
  · exact await_ne_terminate _
  · exact .behind _ fun _ => .behind _ fun _ => .pure (by decide)
  · exact .throw _

section Trees

variable {rules : Rules} {level : Int} {m m' : Machine} {s : Status}

/-- A command ends the session only where its verb says so, and then does nothing else. -/
theorem runLeaf_eq_terminate {mark : Option Nat} {c : Command}
    (h : runLeaf rules mark c level m = .ok .terminate m') :
    rules.kind (c.verb.expand m.proc.table) = .finish ∧ m'.proc = m.proc := by
  have htold : Idle m ((Tree.leaf mark c).told level m) := (Tree.leaf mark c).told_idle level m
  rw [runLeaf_eq, Rules.perform] at h
  cases hkind : rules.kind (c.verb.expand m.proc.table) with
  | assignment name value =>
    rw [hkind] at h
    cases setVariable_yields name value _ _ _ h
  | change =>
    rw [hkind] at h
    rcases changeDirectory_yields c _ _ _ h with hs | hs
    · cases hs
    · cases hs
  | external =>
    rw [hkind] at h
    exact absurd rfl (runExternal_ne_terminate c _ _ _ h)
  | finish =>
    rw [hkind] at h
    have hsaid : Keeps Idle (endSession (c.verb.expand m.proc.table)) :=
      .bind (.info _ _) fun _ => .pure _
    have hidle := hsaid.of_ok h
    exact ⟨rfl, Frame.trans htold hidle⟩

/-- The end of a serial pair leaves the last number as it is, for its sides have kept it. -/
theorem execute_serial_eq_ok {mark : Option Nat} {op : Operator} {l r : Tree}
    (hop : op.forks = false) (h : execute rules (.binary mark op l r) level m = .ok s m') :
    ∃ m₁, combine op (execute rules l (level + 1)) (execute rules r (level + 1))
        ((Tree.binary mark op l r).told level m) = .ok s m₁ ∧
      m'.proc.commandLast = m₁.proc.commandLast := by
  rw [execute_of_admits (.of_ok h)] at h
  obtain ⟨s₁, m₁, hsides, hrest⟩ := bind_eq_ok.1 h
  obtain ⟨_, m₂, hlog, hkept⟩ := bind_eq_ok.1 hrest
  have hsettles := Settles.combine hop (execute_settles rules l (level + 1))
    (execute_settles rules r (level + 1))
  have hsame : remember s₁ m₂ = .ok s₁ m₂ := by
    refine remember_of_settled fun n hn => ?_
    rw [debug_idle hlog]
    exact hsettles _ n m₁ (hn ▸ hsides)
  obtain ⟨rfl, rfl⟩ := EStateM.Result.ok.inj (hsame.symm.trans hkept)
  exact ⟨m₁, hsides, congrArg Proc.commandLast (debug_idle hlog)⟩

/-- What a unit answers is the last number of the running process; where it ends the session it is
a command, and the last number stays. -/
theorem unit_commandLast {t : Tree} (h : execute rules t level m = .ok s m')
    (hend : s = .terminate → m'.proc.commandLast = m.proc.commandLast) :
    m'.proc.commandLast = lastNumber m.proc.commandLast (answered (execute rules t level m)) := by
  rw [h]
  cases s with
  | terminate => exact hend rfl
  | code n => exact execute_settles rules t level m n m' h

/-- After a tree the last number of the running process is the last one that a unit answered with.
The induction follows the tree: the number that decides whether a right side is run is the last one
of the left side, and a number passed on is there already. -/
theorem execute_commandLast {t : Tree} (h : execute rules t level m = .ok s m') :
    m'.proc.commandLast = lastNumber m.proc.commandLast (unitNumbers rules t level m) := by
  induction t generalizing level m m' s with
  | leaf mark c =>
    refine unit_commandLast h fun hs => ?_
    subst hs
    obtain ⟨s₁, m₁, hrun, hrest⟩ := bind_eq_ok.1 h
    obtain ⟨m₂, hkept⟩ := exists_remember s₁ m₁
    obtain ⟨rfl, rfl⟩ := EStateM.Result.ok.inj (hrest.symm.trans hkept)
    obtain ⟨-, hm₁⟩ := EStateM.Result.ok.inj (hrest : EStateM.Result.ok _ _ = _)
    rw [← hm₁, (runLeaf_eq_terminate hrun).2]
  | bare mark => exact absurd h execute_bare_ne_ok
  | binary mark op l r ihl ihr =>
    rw [unitNumbers]
    cases hop : op.forks with
    | true =>
      refine unit_commandLast h fun hs => ?_
      obtain ⟨m₁, hsides⟩ := execute_pair_eq_ok h
      exact absurd hs (combine_ne_terminate hop _ _ _ hsides)
    | false =>
      obtain ⟨m₁, hsides, hlast⟩ := execute_serial_eq_ok hop h
      have htold : ((Tree.binary mark op l r).told level m).proc = m.proc :=
        (Tree.binary mark op l r).told_idle level m
      rw [if_neg (by simp), lastNumber_append, hlast, ← htold]
      rcases combine_eq_ok_of_serial hop hsides with ⟨-, hl⟩ | ⟨n, m₂, hl, hrest⟩
      · rw [hl, ← ihl hl]
        rfl
      · rw [hl, ← ihl hl]
        rcases hrest with ⟨hskip, -, logger, message, hlog⟩ | ⟨hgo, hr⟩
        · dsimp only
          rw [debug_idle hlog, hskip]
          rfl
        · dsimp only
          rw [hgo]
          exact ihr hr

end Trees

/-! ### Lines -/

namespace Shell

variable (shell : Shell)

/-- What a line adds to the history of a session. -/
def lineNumbers (line : Text) (m : Machine) : List Int :=
  match parseLine line with
  | .error _ => [2]
  | .ok none => []
  | .ok (some t) => unitNumbers shell.rules t 0 (entering t m)

/-- The history of a session that runs lines one after the other. -/
def history : List Text → Machine → List Int
  | [], _ => []
  | line :: lines, m => shell.lineNumbers line m ++ history lines ((shell.runLine line).after m)

/-- Runs lines one after the other, whatever they answer; gives their statuses. -/
def runEach : List Text → Act (List Status)
  | [] => return []
  | line :: lines => do
    let s ← shell.runLine line
    return s :: (← runEach lines)

section Line

variable {shell} {line : Text} {m n : Machine} {s : Status}

/-- After a line the last number of the session is the last one of its history. -/
theorem runLine_sessionLast (h : shell.runLine line m = .ok s n) :
    n.proc.sessionLast = lastNumber m.proc.sessionLast (shell.lineNumbers line m) := by
  unfold lineNumbers
  cases hp : parseLine line with
  | error e =>
    unfold runLine at h
    rw [hp] at h
    obtain ⟨_, m₁, -, h⟩ := bind_eq_ok.1 h
    obtain ⟨-, rfl⟩ := EStateM.Result.ok.inj (h : EStateM.Result.ok _ _ = _)
    rfl
  | ok r =>
    cases r with
    | none =>
      rw [runLine_blank shell hp] at h
      obtain ⟨-, rfl⟩ := EStateM.Result.ok.inj (h : EStateM.Result.ok _ _ = _)
      rfl
    | some t =>
      obtain ⟨e, hrun, rfl⟩ := exists_execute_of_runLine shell hp h
      have hlog := Keeps.debug (R := Idle) logger ("Command tree:\n".toList ++ t.outline 0) m
      have hbegin : (entering t m).proc.commandLast = m.proc.sessionLast :=
        congrArg Proc.sessionLast hlog
      rw [← hbegin]
      exact execute_commandLast hrun

/-- A line that is not blank ends the session, or answers with the last number of the session. -/
theorem runLine_answer (h : shell.runLine line m = .ok s n) (hblank : parseLine line ≠ .ok none) :
    s = .terminate ∨ s = .code n.proc.sessionLast := by
  cases hp : parseLine line with
  | error e =>
    unfold runLine at h
    rw [hp] at h
    obtain ⟨_, m₁, -, h⟩ := bind_eq_ok.1 h
    obtain ⟨rfl, rfl⟩ := EStateM.Result.ok.inj (h : EStateM.Result.ok _ _ = _)
    exact Or.inr rfl
  | ok r =>
    cases r with
    | none => exact absurd hp hblank
    | some t =>
      obtain ⟨e, hrun, rfl⟩ := exists_execute_of_runLine shell hp h
      cases s with
      | terminate => exact Or.inl rfl
      | code k =>
        exact Or.inr (congrArg Status.code (execute_settles shell.rules t 0 _ k e hrun).symm)

end Line

/-! ### Sessions -/

variable {shell} {lines : List Text} {m n : Machine} {ss : List Status}

/-- Of lines that are run to their end, a first part is run to its end, and then the rest. -/
theorem exists_of_runEach_append {xs ys : List Text}
    (h : shell.runEach (xs ++ ys) m = .ok ss n) :
    ∃ ss₁ ss₂ m₁, shell.runEach xs m = .ok ss₁ m₁ ∧ shell.runEach ys m₁ = .ok ss₂ n ∧
      ss = ss₁ ++ ss₂ ∧ ss₁.length = xs.length := by
  induction xs generalizing m ss with
  | nil => exact ⟨[], ss, m, rfl, h, rfl, rfl⟩
  | cons x xs ih =>
    obtain ⟨s, m₁, hx, hrest⟩ := bind_eq_ok.1 h
    obtain ⟨ss', m₂, hboth, hret⟩ := bind_eq_ok.1 hrest
    obtain ⟨rfl, rfl⟩ := EStateM.Result.ok.inj (hret : EStateM.Result.ok (s :: ss') _ = _)
    obtain ⟨ss₁, ss₂, m₃, hxs, hys, rfl, hlength⟩ := ih hboth
    refine ⟨s :: ss₁, ss₂, m₃, ?_, hys, rfl, congrArg (· + 1) hlength⟩
    exact bind_eq_ok.2 ⟨s, m₁, hx, bind_eq_ok.2 ⟨ss₁, m₃, hxs, rfl⟩⟩

/-- After lines that are run one after the other, the last number is the last one of the history. -/
theorem runEach_sessionLast (h : shell.runEach lines m = .ok ss n) :
    n.proc.sessionLast = lastNumber m.proc.sessionLast (shell.history lines m) := by
  induction lines generalizing m ss with
  | nil =>
    obtain ⟨-, rfl⟩ := EStateM.Result.ok.inj (h : EStateM.Result.ok _ _ = _)
    rfl
  | cons line lines ih =>
    obtain ⟨s, m₁, hline, hrest⟩ := bind_eq_ok.1 h
    obtain ⟨ss', m₂, hlines, hret⟩ := bind_eq_ok.1 hrest
    obtain ⟨-, rfl⟩ := EStateM.Result.ok.inj (hret : EStateM.Result.ok _ _ = _)
    rw [history, lastNumber_append, after_of_ok hline, ← runLine_sessionLast hline]
    exact ih hlines

end Shell

/-- **Main result**: in a new session lines are run one after the other, and none of the runs is
broken off. Then after each line the last number of the session is the last one of its history,
which begins with 0, and the line, unless it was blank, answered with that number or ended the
session. -/
theorem runEach_history {shell : Shell} {lines : List Text} {m n : Machine} {ss : List Status}
    (hnew : m.proc.sessionLast = 0) (h : shell.runEach lines m = .ok ss n)
    {before behind : List Text} {line : Text} (hlines : lines = before ++ line :: behind) :
    ∃ s k k', ss[before.length]? = some s ∧
      shell.runEach before m = .ok (ss.take before.length) k ∧ shell.runLine line k = .ok s k' ∧
      (0 :: shell.history (before ++ [line]) m).getLast? = some k'.proc.sessionLast ∧
      (parseLine line ≠ .ok none → s = .terminate ∨ s = .code k'.proc.sessionLast) := by
  have hsplit : lines = (before ++ [line]) ++ behind := by simp [hlines]
  rw [hsplit] at h
  obtain ⟨ss₁, ss₂, k', hupTo, -, rfl, -⟩ := Shell.exists_of_runEach_append h
  obtain ⟨ss₃, ss₄, k, hbefore, hlast, rfl, hlength⟩ := Shell.exists_of_runEach_append hupTo
  obtain ⟨s, k₁, hline, hrest⟩ := bind_eq_ok.1 hlast
  obtain ⟨rfl, rfl⟩ := EStateM.Result.ok.inj (hrest : EStateM.Result.ok [s] _ = _)
  refine ⟨s, k, k₁, ?_, ?_, hline, ?_, Shell.runLine_answer hline⟩
  · simp [← hlength]
  · simpa [← hlength] using hbefore
  · rw [getLast?_cons_eq_lastNumber, ← hnew, ← Shell.runEach_sessionLast hupTo]

/-- A session with a line that fails, one that is to end it, one that cannot be read, a blank one,
and a pipe whose right side wants to end the session. -/
def mixedSession : List Text :=
  ["cd none".toList, "exit".toList, ['|'], [], "true | exit".toList]

/-- In that session `exit` and the blank line add nothing to the history, and the pipe adds the exit
code of its right side. -/
theorem runEach_history_mixedSession :
    let shell := Shell.ofSettings .standard
    let m := Machine.boot .standard FileTree.home [] [] [] []
    m.proc.sessionLast = 0 ∧ shell.history mixedSession m = [1, 2, 156] ∧
      ∃ k k', shell.runEach (mixedSession.take 4) m
          = .ok [.code 1, .terminate, .malformed, .success] k ∧
        shell.runLine "true | exit".toList k = .ok (.code 156) k' ∧ k'.proc.sessionLast = 156 := by
  intro shell m
  have hhistory : shell.history mixedSession m = [1, 2, 156] := by decide +kernel
  have hrun : (match shell.runEach mixedSession m with
      | .ok ss _ => some ss
      | .error _ _ => none) = some [.code 1, .terminate, .malformed, .success, .code 156] := by
    decide +kernel
  refine ⟨rfl, hhistory, ?_⟩
  split at hrun
  · next ss n hn =>
    obtain rfl := Option.some.inj hrun
    have hlines : mixedSession = mixedSession.take 4 ++ "true | exit".toList :: [] := rfl
    obtain ⟨s, k, k', hs, hbefore, hline, hlast, -⟩ := runEach_history rfl hn hlines
    obtain rfl : Status.code 156 = s := Option.some.inj hs
    rw [← hlines, hhistory] at hlast
    exact ⟨k, k', hbefore, hline, (Option.some.inj hlast).symm⟩
  · simp at hrun

end LineShell
