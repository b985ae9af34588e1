import LineShell.CommandLine
import LineShell.Proofs.Depth
import LineShell.Proofs.LineEnds
import LineShell.Proofs.Printing

/-!
# Scripts

A text that is run line by line, and the same text run as one line. Both run the trees of the text
one after the other until one of them ends the session: the lines do it in their loop, and the
whole text does it as a sequence. What is told apart is only how deep the trees stand, how often
the last number is handed over between the session and its commands, and what is logged of it.

## The model

* `runRow` runs trees one after the other and carries the last number along; it is what both runs
  are compared with. It stands on `andThen`, which goes on behind a number and stops behind the
  end of the session.
* `Settles` says of an action that the number it answers with is kept as the last one already, so
  that keeping it once more does nothing.
* `Machine.handed` is a machine whose next command finds the last number of the session, and
  `Machine.Settled` one in which the session and its commands have the same.

## What is proved

* A pair whose operator is registered logs something, runs its sides, logs something and keeps a
  number that is kept already. So where a record may stand on one side alone, it is in step with
  whatever its sides are in step with (`exists_runPair`, `runPair_left`).
* A tree runs as the trees of its sequence do (`execute_row`), and a line with commands as its
  tree does (`runLine_row`).
* Lines in the loop run as their trees do, one after the other, and end early where these do
  (`runUntilEnd_row`). The induction is on the lines, with the last number carried along.
* What a text does as lines and what it does as one line is the same run of a row of trees; that
  their trees are the same row comes from how lines are read.
* Sessions are discreet: they begin so (`CommandLine.discreet_of_start`) and their lines lead to
  such machines (`Shell.runLine_discreet`). One line given by an option leaves with the exit code
  of its lines read from the input (`CommandLine.exitCode_lines`).

## What is left out

A text in which a line runs over its end, as an open quote does, reads differently in the two
ways, and so does one with a line that cannot be read. Such texts are left out by what is asked of
the lines.
-/

namespace LineShell

open Act

/-! ### One tree after the other -/

/-- Goes on with the number of a status, unless the session is to end. -/
def andThen (a : Act Status) (f : Int → Act Status) : Act Status := do
  match ← a with
  | .terminate => return .terminate
  | .code n => f n

/-- Runs trees one after the other. Gives the last number, which is at first a given one. -/
def runRow (rules : Rules) (n : Int) : List Tree → Act Status
  | [] => return .code n
  | t :: ts => andThen (execute rules t 1) fun k => runRow rules k ts

section AndThen

variable {a : Act Status} {f g : Int → Act Status}

theorem andThen_eq_ok {status : Status} {m m' : Machine} : andThen a f m = .ok status m' ↔
    (a m = .ok .terminate m' ∧ status = .terminate) ∨
      ∃ n m₁, a m = .ok (.code n) m₁ ∧ f n m₁ = .ok status m' := by
  unfold andThen
  rw [bind_eq_ok]
  constructor
  · rintro ⟨s, m₁, ha, hf⟩
    cases s with
    | terminate =>
      obtain ⟨rfl, rfl⟩ := EStateM.Result.ok.inj (hf : EStateM.Result.ok _ _ = _)
      exact Or.inl ⟨ha, rfl⟩
    | code n => exact Or.inr ⟨n, m₁, ha, hf⟩
  · rintro (⟨ha, rfl⟩ | ⟨n, m₁, ha, hf⟩)
    · exact ⟨_, m', ha, rfl⟩
    · exact ⟨_, m₁, ha, hf⟩

theorem andThen_code (a : Act Status) : andThen a (fun n => return .code n) = a := by
  funext m
  unfold andThen
  rw [bind_eq]
  cases a m with
  | error e m' => rfl
  | ok s m' => cases s <;> rfl

theorem andThen_assoc :
    andThen (andThen a f) g = andThen a fun n => andThen (f n) g := by
  funext m
  unfold andThen
  rw [bind_eq, bind_eq, bind_eq]
  cases a m with
  | error e m' => rfl
  | ok s m' =>
    cases s with
    | terminate => rfl
    | code n => exact (bind_eq (f n) _ m').symm

end AndThen

theorem runRow_singleton (rules : Rules) (n : Int) (t : Tree) :
    runRow rules n [t] = execute rules t 1 := andThen_code _

theorem runRow_append (rules : Rules) (n : Int) (ts us : List Tree) :
    runRow rules n (ts ++ us) = andThen (runRow rules n ts) fun k => runRow rules k us := by
  induction ts generalizing n with
  | nil =>
    funext m
    rfl
  | cons t ts ih =>
    have hrest : (fun k => runRow rules k (ts ++ us))
        = fun k => andThen (runRow rules k ts) fun k => runRow rules k us := funext ih
    rw [List.cons_append, runRow, runRow, andThen_assoc, hrest]

/-! ### The last number -/

/-- An action whose number, where it answers with one, is kept as the last one of a command. -/
def Settles (a : Act Status) : Prop :=
  ∀ m n m', a m = .ok (.code n) m' → m'.proc.commandLast = n

/-- To keep a number that is kept already changes nothing. -/
theorem remember_of_settled {s : Status} {m : Machine}
    (h : ∀ n, s = .code n → m.proc.commandLast = n) : remember s m = .ok s m := by
  cases s with
  | terminate => rfl
  | code n =>
    obtain rfl := h n rfl
    rfl

theorem Settles.bind {α : Type} {a : Act α} {f : α → Act Status} (h : ∀ x, Settles (f x)) :
    Settles (a >>= f) := by
  intro m n m' hm
  obtain ⟨x, m₁, -, hf⟩ := bind_eq_ok.1 hm
  exact h x m₁ n m' hf

theorem Settles.remember (s : Status) : Settles (remember s) := by
  intro m n m' h
  cases s with
  | terminate => exact nomatch (h : EStateM.Result.ok Status.terminate _ = _)
  | code k =>
    obtain ⟨hn, rfl⟩ := EStateM.Result.ok.inj (h : EStateM.Result.ok (Status.code k) _ = _)
    exact Status.code.inj hn

theorem execute_settles (rules : Rules) (t : Tree) (level : Int) :
    Settles (execute rules t level) := by
  cases t with
  | leaf mark c => exact .bind fun s => .remember s
  | bare mark =>
    intro m n m' h
    exact nomatch (h : EStateM.Result.error _ _ = _)
  | binary mark op l r =>
    have hpair : Settles (rules.runPair op (Tree.binary mark op l r).shown level
        (execute rules l (level + 1)) (execute rules r (level + 1))) :=
      .bind fun _ => .bind fun _ => .bind fun _ => .bind fun _ => .remember _
    unfold execute
    split
    · exact .bind fun _ => hpair
    · exact hpair

theorem Settles.inSequence {a b : Act Status} (hb : Settles b) : Settles (inSequence a b) := by
  refine .bind fun s => ?_
  cases s with
  | terminate =>
    intro m n m' h
    exact nomatch (h : EStateM.Result.ok Status.terminate _ = _)
  | code n => exact hb

/-! ### Sequences -/

/-- The running process is as it was. -/
def Idle (m m' : Machine) : Prop := m'.proc = m.proc

instance : Frame Idle := ⟨fun _ => rfl, fun hab hbc => hbc.trans hab⟩

instance : Kernel Idle := ⟨fun _ => rfl⟩

/-- Logging leaves the running process as it is. -/
theorem debug_idle {logger message : Text} {m m' : Machine} (h : debug logger message m = .ok () m') :
    m'.proc = m.proc :=
  (Keeps.debug (R := Idle) logger message).of_ok h

/-- An action that gives its descriptors back leaves the log discreet. -/
theorem Machine.Discreet.of_ok {α : Type} {a : Act α} (hr : Restores a) (hg : Keeps Grown a)
    {m n : Machine} {x : α} (h : a m = .ok x n) (hd : m.Discreet) : n.Discreet := by
  have hgrown := hg.of_ok h
  unfold Machine.Discreet
  rw [hr m x n h]
  exact World.Discreet.of_grows hd hgrown

/-- A record that tells of no failure, logged on one side alone. -/
theorem logRecord_aside {m m' : Machine} (h : m.Akin m') (hd : m.Discreet) {r : Record}
    (hr : r.level ≠ .error) :
    ∃ n, logRecord r m = .ok () n ∧ n.Akin m' ∧ n.proc = m.proc ∧ n.Discreet := by
  obtain ⟨n, hn, hakin⟩ := logRecord_akin h hd hr
  exact ⟨n, hn, hakin, (Keeps.logRecord (R := Idle) r).of_ok hn, (h.trans hakin.symm).discreet hd⟩

theorem debug_aside {m m' : Machine} (h : m.Akin m') (hd : m.Discreet) (logger message : Text) :
    ∃ n, debug logger message m = .ok () n ∧ n.Akin m' ∧ n.proc = m.proc ∧ n.Discreet :=
  logRecord_aside h hd (by simp)

theorem info_aside {m m' : Machine} (h : m.Akin m') (hd : m.Discreet) (logger message : Text) :
    ∃ n, info logger message m = .ok () n ∧ n.Akin m' ∧ n.proc = m.proc ∧ n.Discreet :=
  logRecord_aside h hd (by simp)

theorem Rules.refuseMissing_of_mem {rules : Rules} {op : Operator} (h : op ∈ rules.operators) :
    rules.refuseMissing op = pure () := by
  rw [refuseMissing, if_pos h]
  rfl

/-- Where the operator is not registered, a pair fails. -/
theorem registered_of_runPair {rules : Rules} {op : Operator} {shown : Text} {level : Int}
    {a b : Act Status} {m m' : Machine} {status : Status}
    (h : rules.runPair op shown level a b m = .ok status m') : op ∈ rules.operators := by
  obtain ⟨_, m₁, hrefuse, -⟩ := bind_eq_ok.1 h
  by_contra hmem
  have hnone := (refuse_eq_ok hrefuse).1
  rw [if_neg hmem] at hnone
  simp at hnone

section OneSided

variable {P R : Machine → Machine → Prop}
  (hlog : ∀ logger message, InStep P R (debug logger message) (pure ()))
include hlog

/-- What skips its right side does nothing but log that. -/
theorem pass_left {op : Operator} {n : Int} (hskip : op.admits n = false) :
    InStep P R (op.pass n) (return .code n) := by
  obtain ⟨logger, message, hpass⟩ := Operator.pass_of_skip hskip
  have hlogged : InStep P R (debug logger message >>= fun _ => pure (Status.code n))
      (pure () >>= fun _ => pure (Status.code n)) := .bind (hlog logger message) fun _ => .pure _
  rw [hpass]
  exact hlogged

variable [Hosts P R]

/-- A pair whose operator is registered logs what its sides do and keeps their number; where that is
kept already, nothing else is done. So where a record may stand on one side alone, the pair runs as
its sides do, from a machine `d` on. -/
theorem exists_runPair {rules : Rules} {op : Operator} (hop : op ∈ rules.operators) (shown : Text)
    (level : Int) {a b : Act Status} (hstays : Stays P R (combine op a b))
    (hs : Settles (combine op a b)) {m m' : Machine} (hm : P m m') :
    ∃ d, P d m' ∧
      (∀ status n, rules.runPair op shown level a b m = .ok status n →
        ∃ status n, combine op a b d = .ok status n) ∧
      ∀ c : Act Status, Both R (combine op a b d) (c m') →
        Both R (rules.runPair op shown level a b m) (c m') := by
  have hlogged (message : Text) {k k' : Machine} (hk : P k k') :
      ∃ d, debug executor message k = .ok () d ∧ R d k' :=
    (hlog executor message k k' hk).exists_left rfl
  obtain ⟨d, hd, hR⟩ := hlogged (levelText level ++ op.name ++ ": ".toList ++ shown) hm
  have hstart : rules.runPair op shown level a b m = (combine op a b >>= fun status => do
      debug executor (levelText level ++ op.name ++ " -> ".toList ++ status.shown)
      remember status) d := by
    unfold Rules.runPair
    rw [Rules.refuseMissing_of_mem hop]
    show (debug _ _ >>= _) m = _
    rw [bind_eq, hd]
  refine ⟨d, Hosts.calm (.debug _ _) hm hd hR, fun status n h => ?_, fun c hboth => ?_⟩
  · rw [hstart] at h
    obtain ⟨status', n', h', -⟩ := bind_eq_ok.1 h
    exact ⟨status', n', h'⟩
  · have hc : c = c >>= pure := (bind_pure c).symm
    rw [hstart, hc]
    refine hboth.bind fun status n n' hn hR' => ?_
    have hP := hstays (Hosts.calm (.debug _ _) hm hd hR) hn hR'
    obtain ⟨e, he, hR''⟩ := hlogged (levelText level ++ op.name ++ " -> ".toList ++ status.shown) hP
    have hkept : remember status e = .ok status e := by
      refine remember_of_settled fun k hk => ?_
      rw [debug_idle he]
      exact hs d k n (hk ▸ hn)
    rw [bind_eq, he]
    show Both R (remember status e) _
    rw [hkept]
    exact .ok hR''

/-- A pair whose operator is registered is in step with whatever its sides are in step with. -/
theorem runPair_left {rules : Rules} {op : Operator} (hop : op ∈ rules.operators) {shown : Text}
    {level : Int} {a b c : Act Status} (h : InStep P R (combine op a b) c)
    (hstays : Stays P R (combine op a b)) (hs : Settles (combine op a b)) :
    InStep P R (rules.runPair op shown level a b) c := by
  intro m m' hm
  obtain ⟨d, hd, -, hboth⟩ := exists_runPair hlog hop shown level hstays hs hm
  exact hboth c (h d m' hd)

end OneSided

theorem Tree.row_ne_nil (t : Tree) : t.row ≠ [] := by
  unfold row
  split
  · simp
  · simp

/-- A tree runs as the trees of its sequence do, one after the other. -/
theorem execute_row (rules : Rules) {t : Tree} (ht : t.unmarked = t)
    (hop : 1 < t.row.length → .sequential ∈ rules.operators) (level n : Int) (s : Descriptors) :
    AgreesFrom s (s.get? 2) (execute rules t level) (runRow rules n t.row) := by
  have hone (u : Tree) (hu : u.unmarked = u) (level : Int) :
      AgreesFrom s (s.get? 2) (execute rules u level) (runRow rules n [u]) := by
    rw [runRow_singleton]
    exact (execute_twins rules (Tree.firstShared_unmarked hu) level 1).agrees s
  fun_induction Tree.row t generalizing level n with
  | case1 mark l r ih =>
    obtain ⟨rfl, -, hl, hr⟩ := Tree.binary.inj ht
    have hlength := List.length_pos_iff.2 l.row_ne_nil
    have hmem : .sequential ∈ rules.operators := by
      apply hop
      rw [List.length_append, List.length_singleton]
      omega
    have hrun : runRow rules n (l.row ++ [r]) = inSequence (runRow rules n l.row)
        (execute rules r 1) := by
      rw [runRow_append]
      show (andThen (runRow rules n l.row) fun k => runRow rules k [r]) = _
      simp only [runRow_singleton]
      rfl
    have hruns := (execute_runs rules l (level + 1)).combine_serial (execute_runs rules r (level + 1))
      (rfl : Operator.sequential.forks = false)
    have hfollowed := Keeps.combine_followed (execute_followed rules l (level + 1))
      (execute_followed rules r (level + 1)) .sequential
    rw [execute_pair rules (Tree.firstShared_unmarked ht), hrun]
    refine runPair_left (AgreesFrom.debug_left s) hmem ?_
      (Outset.stays hruns.restores hfollowed.grows) (execute_settles rules r _).inSequence
    have hleft := Outset.stays (s := s) (x := s.get? 2) (execute_runs rules l (level + 1)).restores
      (execute_followed rules l _).grows
    refine .bind_stays (ih hl (fun _ => hmem) (level + 1) n hone) hleft fun status => ?_
    split
    · exact .hosted (.pure _)
    · exact (execute_twins rules (Tree.firstShared_unmarked hr) _ _).agrees s
  | case2 t hseq => exact hone t ht level

/-- A sequence is run at depth 0 only where sequences are known. -/
theorem registered_of_execute {rules : Rules} {t : Tree} (ht : t.unmarked = t)
    {m m' : Machine} {status : Status} (h : execute rules t 0 m = .ok status m')
    (hrow : 1 < t.row.length) : .sequential ∈ rules.operators := by
  cases t with
  | leaf mark c => simp [Tree.row] at hrow
  | bare mark => simp [Tree.row] at hrow
  | binary mark op l r =>
    obtain ⟨rfl, -, -, -⟩ := Tree.binary.inj ht
    cases op with
    | sequential =>
      rw [execute_pair rules (Tree.firstShared_unmarked ht)] at h
      exact registered_of_runPair h
    | parallel => simp [Tree.row] at hrow
    | conditionalAnd => simp [Tree.row] at hrow
    | conditionalOr => simp [Tree.row] at hrow
    | pipe => simp [Tree.row] at hrow

/-! ### Lines -/

namespace Machine

/-- A machine whose next command finds the last number of the session. -/
def handed (m : Machine) : Machine := { m with proc.commandLast := m.proc.sessionLast }

/-- The session and its commands have the same last number. -/
def Settled (m : Machine) : Prop := m.proc.commandLast = m.proc.sessionLast

theorem Settled.handed_eq {m : Machine} (h : m.Settled) : m.handed = m := by
  unfold handed
  rw [← h]

theorem Akin.handed {m m' : Machine} (h : m.Akin m')
    (hlast : m.proc.sessionLast = m'.proc.sessionLast) : m.handed.Akin m'.handed := by
  obtain ⟨e, j, s, rfl, ha, hd⟩ := h
  obtain rfl : m.proc.sessionLast = s := hlast
  exact ⟨e, j, _, rfl, ha, hd⟩

/-- The number of the session is no difference. -/
theorem Akin.session {m m' : Machine} (h : m.Akin m') (last : Int) :
    Akin { m with proc.sessionLast := last } m' := by
  obtain ⟨e, j, s, rfl, ha, hd⟩ := h
  exact ⟨e, j, s, rfl, ha, hd⟩

/-- Machines that differ in the log alone, and whose sessions have the same last number, have the
same process. -/
theorem Akin.proc_eq {m m' : Machine} (h : m.Akin m')
    (hlast : m'.proc.sessionLast = m.proc.sessionLast) : m'.proc = m.proc := by
  obtain ⟨e, j, s, rfl, ha, hd⟩ := h
  obtain rfl : s = m.proc.sessionLast := hlast
  rfl

end Machine

namespace Shell

variable (shell : Shell)

theorem runLine_blank {line : Text} (h : parseLine line = .ok none) :
    shell.runLine line = return .success := by
  unfold runLine
  rw [h]

/-- Whatever a line does, the log stays discreet. -/
theorem runLine_discreet {line : Text} {m n : Machine} {status : Status}
    (h : shell.runLine line m = .ok status n) (hd : m.Discreet) : n.Discreet := by
  have hmodify (f : Proc → Proc) (hf : ∀ p, (f p).fds = p.fds) : Keeps Calm (modifyProc f) :=
    .modifyProc hf
  have hline : Restores (shell.runLine line) ∧ Keeps Grown (shell.runLine line) := by
    unfold runLine
    cases parseLine line with
    | error e =>
      have hcalm : Keeps Calm (do
          report ("syntax error: ".toList ++ e.message)
          modifyProc fun p => { p with sessionLast := 2 }
          return Status.malformed) :=
        .bind (.report _) fun _ => .bind (hmodify _ fun _ => rfl) fun _ => .pure _
      exact ⟨.of_bound hcalm.bound, hcalm.still.grown⟩
    | ok r =>
      cases r with
      | none => exact ⟨.of_bound (.pure _), .pure _⟩
      | some t =>
        have hdebug := Keeps.debug (R := Calm) logger ("Command tree:\n".toList ++ t.outline 0)
        have hbefore := hmodify (fun p => { p with commandLast := p.sessionLast }) fun _ => rfl
        have hbehind := hmodify (fun p => { p with sessionLast := p.commandLast }) fun _ => rfl
        constructor
        · refine .bind (.of_bound hdebug.bound) fun _ => .bind (.of_bound hbefore.bound) fun _ => ?_
          refine .bind (execute_runs shell.rules t 0).restores fun _ => ?_
          exact .bind (.of_bound hbehind.bound) fun _ => .of_bound (.pure _)
        · refine .bind hdebug.still.grown fun _ => .bind hbefore.still.grown fun _ => ?_
          refine .bind (execute_followed shell.rules t 0).grows fun _ => ?_
          exact .bind hbehind.still.grown fun _ => .pure _
  exact Machine.Discreet.of_ok hline.1 hline.2 h hd

/-- The machine in which the tree of a line begins: the tree is logged, and the last number of the
session goes to the commands. -/
def entering (t : Tree) (m : Machine) : Machine :=
  ((debug logger ("Command tree:\n".toList ++ t.outline 0)).after m).handed

/-- A line that is run to its end is a tree that is run to its end, at depth 0. -/
theorem exists_execute_of_runLine {line : Text} {t : Tree} (hp : parseLine line = .ok (some t))
    {m n : Machine} {status : Status} (h : shell.runLine line m = .ok status n) :
    ∃ e, execute shell.rules t 0 (entering t m) = .ok status e ∧
      n = { e with proc.sessionLast := e.proc.commandLast } := by
  unfold runLine at h
  rw [hp] at h
  obtain ⟨_, m₁, hlog, h⟩ := bind_eq_ok.1 h
  obtain ⟨_, m₂, hhanded, h⟩ := bind_eq_ok.1 h
  obtain ⟨s, m₃, hrun, h⟩ := bind_eq_ok.1 h
  obtain ⟨rfl, rfl⟩ := EStateM.Result.ok.inj (h : EStateM.Result.ok s _ = _)
  have hm₂ : entering t m = m₂ := by
    rw [entering, after_of_ok hlog]
    exact (EStateM.Result.ok.inj (hhanded : EStateM.Result.ok _ _ = _)).2
  exact ⟨m₃, hm₂ ▸ hrun, rfl⟩

theorem runLine_settled {line : Text} {t : Tree} (hp : parseLine line = .ok (some t))
    {m n : Machine} {status : Status} (h : shell.runLine line m = .ok status n) : n.Settled := by
  obtain ⟨e, -, rfl⟩ := exists_execute_of_runLine shell hp h
  rfl

/-- The number of a line is the last one of the session, unless nothing is done. -/
theorem runLine_last {line : Text} {r : Option Tree} (hp : parseLine line = .ok r)
    {m n : Machine} {j : Int} (h : shell.runLine line m = .ok (.code j) n) :
    n.proc.sessionLast = j ∨ j = 0 ∧ n = m := by
  cases r with
  | none =>
    rw [runLine_blank shell hp] at h
    obtain ⟨hstatus, rfl⟩ := EStateM.Result.ok.inj (h : EStateM.Result.ok Status.success _ = _)
    exact Or.inr ⟨(Status.code.inj hstatus).symm, rfl⟩
  | some t =>
    obtain ⟨e, hrun, rfl⟩ := exists_execute_of_runLine shell hp h
    exact Or.inl (execute_settles shell.rules t 0 _ j e hrun)

/-- A line with commands is run as its trees are, one after the other, from the last number of the
session on. -/
theorem runLine_row {line : Text} {t : Tree} (h : parseLine line = .ok (some t))
    (hop : 1 < t.row.length → .sequential ∈ shell.operators) (k : Int) {m m' : Machine}
    (hd : m.Discreet) (hm : m.handed.Akin m') :
    Agree (shell.runLine line m) (runRow shell.rules k t.row m') := by
  obtain ⟨-, hunmarked⟩ := normal_of_parseLine h
  obtain ⟨d, hdebug, hakin, hproc, hx⟩ := debug_aside (.refl m) hd logger
    ("Command tree:\n".toList ++ t.outline 0)
  have hrun : shell.runLine line m = (execute shell.rules t 0 >>= fun status => do
      modifyProc fun p => { p with sessionLast := p.commandLast }
      return status) d.handed := by
    unfold runLine
    rw [h]
    show (debug _ _ >>= _) m = _
    rw [bind_eq, hdebug]
    rfl
  have hhanded : d.handed.Akin m' := (hakin.handed (by rw [hproc])).trans hm
  have hrow := execute_row shell.rules hunmarked hop 0 k d.handed.proc.fds d.handed m' ⟨rfl, hx, hhanded⟩
  rw [hrun, bind_eq]
  generalize execute shell.rules t 0 d.handed = r at hrow
  generalize runRow shell.rules k t.row m' = r' at hrow
  cases hrow with
  | error hn => exact .error hn
  | ok hn => exact .ok (hn.session _)

/-- What the loop does behind a line: it ends, or goes on. -/
def goOn (rest : Act Bool) : Status → Act Bool
  | .terminate => do
    info logger "Session terminated by exit/quit".toList
    return true
  | .code _ => rest

/-- How the loop goes on behind a line depends on the status of the line. -/
theorem runUntilEnd_cons {interactive : Bool} {line : Text} {m m₁ m₂ : Machine} {s : Status}
    (hprompt : shell.showPrompt interactive m = .ok () m₁)
    (hline : shell.runLine line m₁ = .ok s m₂) (lines : List Text) :
    shell.runUntilEnd interactive (line :: lines) m
      = goOn (shell.runUntilEnd interactive lines) s m₂ := by
  rw [runUntilEnd]
  show (shell.showPrompt interactive >>= _ : Act Bool) m = _
  rw [bind_eq, hprompt]
  show (shell.runLine line >>= _ : Act Bool) m₁ = _
  rw [bind_eq, hline]
  cases s <;> rfl

/-- Behind a line with a number the lines go on. -/
theorem runUntilEnd_cons_code {line : Text} {m n : Machine} {j : Int}
    (h : shell.runLine line m = .ok (.code j) n) (lines : List Text) :
    shell.runUntilEnd false (line :: lines) m = shell.runUntilEnd false lines n :=
  runUntilEnd_cons shell rfl h lines

/-- A line that ends the session is the last one. -/
theorem runUntilEnd_cons_terminate {line : Text} {m n : Machine}
    (h : shell.runLine line m = .ok .terminate n) (lines : List Text) :
    shell.runUntilEnd false (line :: lines) m = (do
      info logger "Session terminated by exit/quit".toList
      return true) n :=
  runUntilEnd_cons shell rfl h lines

theorem lineRow_eq_nil {line : Text} {r : Option Tree} (h : parseLine line = .ok r)
    (hrow : lineRow line = []) : r = none := by
  rw [lineRow, h] at hrow
  cases r with
  | none => rfl
  | some t => exact absurd hrow t.row_ne_nil

/-- Lines without commands change nothing. -/
theorem runUntilEnd_blank {lines : List Text}
    (hparse : ∀ line ∈ lines, ∃ r, parseLine line = .ok r) (h : lines.flatMap lineRow = [])
    (m : Machine) : shell.runUntilEnd false lines m = .ok false m := by
  induction lines with
  | nil => rfl
  | cons line lines ih =>
    obtain ⟨⟨r, hr⟩, hparse⟩ := List.forall_mem_cons.1 hparse
    rw [List.flatMap_cons, List.append_eq_nil_iff] at h
    obtain rfl := lineRow_eq_nil hr h.1
    have hline : shell.runLine line m = .ok .success m := by rw [runLine_blank shell hr]; rfl
    rw [runUntilEnd_cons_code shell hline]
    exact ih hparse h.2

/-- **The loop**: lines are run as their trees are, one after the other, and end early where these
do. The induction carries the last number along: before each line the session has the one that the
next command is to find, and after a line with commands the session and the commands agree. -/
theorem runUntilEnd_row {lines : List Text} {k : Int} {m m' n : Machine} {status : Status}
    (hparse : ∀ line ∈ lines, ∃ r, parseLine line = .ok r)
    (hop : 1 < (lines.flatMap lineRow).length → .sequential ∈ shell.operators)
    (hd : m.Discreet) (hm : m.handed.Akin m')
    (h : runRow shell.rules k (lines.flatMap lineRow) m' = .ok status n) :
    ∃ e, shell.runUntilEnd false lines m = .ok status.isTerminate e ∧ e.handed.Akin n ∧
      ((lines.flatMap lineRow = [] → m.Settled) → e.Settled) := by
  induction lines generalizing k m m' with
  | nil =>
    obtain ⟨rfl, rfl⟩ := EStateM.Result.ok.inj (h : EStateM.Result.ok _ _ = _)
    exact ⟨m, rfl, hm, fun hs => hs rfl⟩
  | cons line lines ih =>
    obtain ⟨⟨r, hr⟩, hparse⟩ := List.forall_mem_cons.1 hparse
    have hrow : lineRow line = rowOf r := by rw [lineRow, hr]
    rw [List.flatMap_cons, hrow] at h hop ⊢
    cases r with
    | none =>
      have hline : shell.runLine line m = .ok .success m := by rw [runLine_blank shell hr]; rfl
      rw [runUntilEnd_cons_code shell hline]
      exact ih hparse hop hd hm h
    | some t =>
      rw [List.length_append] at hop
      have hleft : 1 < t.row.length → .sequential ∈ shell.operators := by
        intro hlt
        apply hop
        rw [rowOf]
        omega
      have hright : 1 < (lines.flatMap lineRow).length → .sequential ∈ shell.operators := by
        intro hlt
        apply hop
        omega
      have hagree := runLine_row shell hr hleft k hd hm
      rw [runRow_append] at h
      rcases andThen_eq_ok.1 h with ⟨hend, rfl⟩ | ⟨j, m₁, hgo, hrest⟩
      · obtain ⟨e, hline, he⟩ := hagree.exists_left hend
        have hx := runLine_discreet shell hline hd
        obtain ⟨e', hinfo, hakin, hproc, -⟩ := info_aside he hx logger
          "Session terminated by exit/quit".toList
        have hsettled : e'.Settled := by
          unfold Machine.Settled
          rw [hproc]
          exact runLine_settled shell hr hline
        refine ⟨e', ?_, by rwa [hsettled.handed_eq], fun _ => hsettled⟩
        rw [runUntilEnd_cons_terminate shell hline]
        show (info _ _ >>= _) e = _
        rw [bind_eq, hinfo]
        rfl
      · obtain ⟨e, hline, he⟩ := hagree.exists_left hgo
        have hx := runLine_discreet shell hline hd
        have hsettled := runLine_settled shell hr hline
        have hhanded : e.handed.Akin m₁ := by rwa [hsettled.handed_eq]
        obtain ⟨e', hlines, hakin, hs⟩ := ih hparse hright hx hhanded hrest
        rw [runUntilEnd_cons_code shell hline]
        exact ⟨e', hlines, hakin, fun _ => hs fun _ => hsettled⟩

/-- A run of the lines that does what a run of the whole text does. -/
theorem runUntilEnd_of_runLine {text : Text}
    (hparse : ∀ line ∈ linesOf text, ∃ r, parseLine line = .ok r)
    (hends : ∀ line ∈ linesOf text, line.getLast? = some '\n' → EndsLine line)
    {m n : Machine} {status : Status} (hd : m.Discreet)
    (h : shell.runLine text m = .ok status n) :
    ∃ n', shell.runUntilEnd false (linesOf text) m = .ok status.isTerminate n' ∧ n.Akin n' ∧
      n'.proc = n.proc := by
  obtain ⟨r, hr, hrow⟩ := exists_of_parseLine_linesOf hparse hends
  cases r with
  | none =>
    rw [runLine_blank shell hr] at h
    obtain ⟨rfl, rfl⟩ := EStateM.Result.ok.inj (h : EStateM.Result.ok Status.success _ = _)
    exact ⟨m, runUntilEnd_blank shell hparse hrow.symm m, .refl m, rfl⟩
  | some t =>
    have hrow' : t.row = (linesOf text).flatMap lineRow := hrow
    have hop : 1 < t.row.length → .sequential ∈ shell.operators := by
      obtain ⟨e, hrun, -⟩ := exists_execute_of_runLine shell hr h
      exact registered_of_execute (normal_of_parseLine hr).2 hrun
    obtain ⟨e, hwhole, he⟩ := (runLine_row shell hr hop 0 hd (.refl m.handed)).exists_right h
    rw [hrow'] at hwhole hop
    obtain ⟨n', hlines, hakin, hs⟩ := runUntilEnd_row shell hparse hop hd (.refl m.handed) hwhole
    have hsettled : n.Settled := runLine_settled shell hr h
    have hsettled' : n'.Settled := hs fun hnil => absurd (hrow'.trans hnil) t.row_ne_nil
    rw [hsettled'.handed_eq] at hakin
    have hsame : n.Akin n' := he.trans hakin.symm
    refine ⟨n', hlines, hsame, hsame.proc_eq ?_⟩
    obtain ⟨_, _, _, rfl, -⟩ := hsame
    exact hsettled'.symm.trans hsettled

/-- The lines of a text answer with the last number of the session. -/
theorem runText_eq_ok {interactive ended : Bool} {text : Text} {m n : Machine}
    (h : shell.runUntilEnd interactive (linesOf text) m = .ok ended n) :
    shell.runText interactive text m = .ok n.proc.sessionLast n := by
  unfold runText runLines
  rw [bind_eq, h]
  rfl

end Shell

/-! ### The command line -/

/-- Standard error of a machine before anything happened is the error output, or closed. -/
theorem Machine.boot_errors (files : FileTree) (cwd : Place) (input : Bytes) (closed : List Nat)
    (faults : List Fault) (table : Table) :
    (Machine.boot files cwd input closed faults table).proc.fds.get? 2 = none ∨
      (Machine.boot files cwd input closed faults table).proc.fds.get? 2 = some 2 := by
  exact Descriptors.get?_foldl_erase closed .standard 2

namespace CommandLine

/-- Where an argument behind `-c` is taken for its value, that is the line to run. -/
theorem eq_of_readArguments {line : Text} {choices : Choices}
    (h : readArguments ["-c".toList, line] = .ok choices) : choices = ⟨some line, false, 0⟩ := by
  have hflag : classify "-c".toList = .ok (.flag .command true none) := rfl
  have hdash : "-c".toList ≠ ['-', '-'] := by decide
  by_cases hmark : line = ['-', '-']
  · subst hmark
    exact nomatch (h : Except.error (Stop.usage (.noValue .command)) = _)
  unfold readArguments classifyAll classifyAll at h
  rw [if_neg hdash, if_neg hmark, hflag] at h
  cases hargument : classify line with
  | error e => simp [hargument, bind, Except.bind] at h
  | ok argument =>
    rw [hargument] at h
    cases argument with
    | plain =>
      obtain rfl := Except.ok.inj (h : Except.ok (Choices.mk (some (lineOfValue line)) false 0) = _)
      rw [lineOfValue, if_neg hmark]
    | endMark => exact nomatch (h : Except.error (Stop.usage (.noValue .command)) = _)
    | flag f short attached => exact nomatch (h : Except.error (Stop.usage (.noValue .command)) = _)
    | unknown => exact nomatch (h : Except.error (Stop.usage (.noValue .command)) = _)

/-- A new session logs to the error output, if anywhere, and has not run anything. -/
theorem discreet_of_start {m m' : Machine} {level : Text}
    (hfds : m.proc.fds.get? 2 = none ∨ m.proc.fds.get? 2 = some 2)
    (hopened : ∃ f, m.world.opened[2]? = some f ∧ f.target = .errors)
    (h : (do startLog level; Shell.start) m = .ok () m') : m'.Discreet ∧ m'.proc = m.proc := by
  obtain ⟨_, m₁, hlog, hstart⟩ := bind_eq_ok.1 h
  have hm₁ : m₁ = { m with world.echoFrom := some (Level.threshold level) } := by
    unfold startLog at hlog
    cases hname : namesOfNoLevel.find? fun e => e.1 == level with
    | some e =>
      rw [hname] at hlog
      exact nomatch (hlog : EStateM.Result.error _ _ = _)
    | none =>
      rw [hname] at hlog
      exact (EStateM.Result.ok.inj (hlog : EStateM.Result.ok _ _ = _)).2.symm
  have hidle : Idle m₁ (Shell.start.after m₁) := Keeps.info _ _ m₁
  have hgrown : Grown m₁ (Shell.start.after m₁) := Keeps.info _ _ m₁
  rw [after_of_ok hstart] at hidle hgrown
  have hproc : m'.proc = m.proc := by
    rw [hidle, hm₁]
  refine ⟨?_, hproc⟩
  unfold Machine.Discreet
  rw [hproc]
  have hx : m₁.world.Discreet (m.proc.fds.get? 2) := by
    rw [hm₁]
    obtain ⟨f, hf, htarget⟩ := hopened
    rcases hfds with hnone | hsome
    · exact Or.inr (Or.inl hnone)
    · exact Or.inr (Or.inr ⟨2, f, hsome, hf, Or.inl htarget⟩)
  exact hx.of_grows hgrown

/-- What the program does where the arguments can be read. -/
theorem exitCode_eq_ok {arguments : List Text} {choices : Choices}
    (hc : readArguments arguments = .ok choices) {interactive : Bool} {input : Text}
    {m n : Machine} {code : Nat} :
    exitCode arguments interactive input m = .ok code n ↔
      ∃ m₁, (do startLog (settings choices m.proc.table).logLevel; Shell.start) m = .ok () m₁ ∧
        run choices (.ofSettings (settings choices m.proc.table)) interactive input m₁
          = .ok code n := by
  have hstart : start arguments m = (do
      startLog (settings choices m.proc.table).logLevel
      Shell.start
      return Except.ok (choices, Shell.ofSettings (settings choices m.proc.table))) m := by
    unfold start
    rw [hc]
    rfl
  unfold exitCode
  rw [bind_eq_ok, hstart]
  constructor
  · rintro ⟨r, m₁, hr, hrun⟩
    obtain ⟨_, m₂, hlog, hr⟩ := bind_eq_ok.1 hr
    obtain ⟨_, m₃, hshell, hr⟩ := bind_eq_ok.1 hr
    obtain ⟨rfl, rfl⟩ := EStateM.Result.ok.inj (hr : EStateM.Result.ok _ _ = _)
    exact ⟨m₃, bind_eq_ok.2 ⟨(), m₂, hlog, hshell⟩, hrun⟩
  · rintro ⟨m₁, h, hrun⟩
    obtain ⟨_, m₂, hlog, hshell⟩ := bind_eq_ok.1 h
    exact ⟨_, m₁, bind_eq_ok.2 ⟨(), m₂, hlog, bind_eq_ok.2 ⟨(), m₁, hshell, rfl⟩⟩, hrun⟩

/-- One line given by an option leaves with the exit code of its lines read from the input. -/
theorem exitCode_lines {text : Text}
    (hparse : ∀ line ∈ linesOf text, ∃ r, parseLine line = .ok r)
    (hends : ∀ line ∈ linesOf text, line.getLast? = some '\n' → EndsLine line)
    {choices : Choices} (hc : readArguments ["-c".toList, text] = .ok choices) {m n : Machine}
    (hfds : m.proc.fds.get? 2 = none ∨ m.proc.fds.get? 2 = some 2)
    (hopened : ∃ f, m.world.opened[2]? = some f ∧ f.target = .errors)
    (hlast : m.proc.sessionLast = 0) {interactive : Bool} {input : Text} {code : Nat}
    (h : exitCode ["-c".toList, text] interactive input m = .ok code n) :
    ∃ n', exitCode [] false text m = .ok code n' ∧ n.Akin n' := by
  obtain rfl := eq_of_readArguments hc
  obtain ⟨m₁, hstart, hrun⟩ := (exitCode_eq_ok hc).1 h
  obtain ⟨hd, hproc⟩ := discreet_of_start hfds hopened hstart
  obtain ⟨status, n₁, hline, hrest⟩ := bind_eq_ok.1 hrun
  obtain ⟨n', hlines, hakin, hproc'⟩ :=
    Shell.runUntilEnd_of_runLine _ hparse hends hd hline
  have hcode : code = (Status.code n₁.proc.sessionLast).exitCode ∧ n = n₁ := by
    cases status with
    | terminate =>
      obtain ⟨rfl, rfl⟩ := EStateM.Result.ok.inj (hrest : EStateM.Result.ok _ _ = _)
      exact ⟨rfl, rfl⟩
    | code j =>
      obtain ⟨rfl, rfl⟩ := EStateM.Result.ok.inj (hrest : EStateM.Result.ok _ _ = _)
      obtain ⟨r, hr, -⟩ := exists_of_parseLine_linesOf hparse hends
      rcases Shell.runLine_last _ hr hline with hj | ⟨rfl, rfl⟩
      · exact ⟨by rw [hj], rfl⟩
      · exact ⟨by rw [hproc, hlast], rfl⟩
  obtain ⟨rfl, rfl⟩ := hcode
  have hempty : readArguments [] = .ok ⟨none, false, 0⟩ := rfl
  refine ⟨n', (exitCode_eq_ok hempty).2 ⟨m₁, hstart, ?_⟩, hakin⟩
  have htext := Shell.runText_eq_ok _ hlines
  rw [hproc'] at htext
  exact bind_eq_ok.2 ⟨_, n', htext, rfl⟩

end CommandLine

/-! ### Lines and the whole text -/

/-- **Main result**: where a text can be read line by line, and no line runs over its end, running
its lines does what running the whole text does. The same system calls are made in the same order,
both end in machines that differ in the log alone, with the same process, and the lines end early
where the text ends the session. So the program leaves with the same exit code, whether the text is
given by an option or read from the input.

The machines that a session comes to are discreet: it starts in one (`discreet_of_start`) and its
lines lead to such machines (`Shell.runLine_discreet`). -/
theorem runText_of_runLine {text : Text}
    (hparse : ∀ line ∈ linesOf text, ∃ r, parseLine line = .ok r)
    (hends : ∀ line ∈ linesOf text, line.getLast? = some '\n' → EndsLine line) :
    (∀ (shell : Shell) (m n : Machine) (status : Status), m.Discreet →
      shell.runLine text m = .ok status n →
        ∃ n', shell.runUntilEnd false (linesOf text) m = .ok status.isTerminate n' ∧
          shell.runText false text m = .ok n.proc.sessionLast n' ∧
          n.Akin n' ∧ n'.proc = n.proc) ∧
    ∀ (files : FileTree) (cwd : Place) (input : Bytes) (closed : List Nat) (faults : List Fault)
      (table : Table) (choices : Choices) (interactive : Bool) (script : Text) (code : Nat)
      (n : Machine), readArguments ["-c".toList, text] = .ok choices →
      CommandLine.exitCode ["-c".toList, text] interactive script
          (Machine.boot files cwd input closed faults table) = .ok code n →
        ∃ n', CommandLine.exitCode [] false text
          (Machine.boot files cwd input closed faults table) = .ok code n' ∧ n.Akin n' := by
  constructor
  · intro shell m n status hd h
    obtain ⟨n', hlines, hakin, hproc⟩ := Shell.runUntilEnd_of_runLine shell hparse hends hd h
    have htext := Shell.runText_eq_ok shell hlines
    rw [hproc] at htext
    exact ⟨n', hlines, htext, hakin, hproc⟩
  · intro files cwd input closed faults table choices interactive script code n hc h
    have hfds := Machine.boot_errors files cwd input closed faults table
    exact CommandLine.exitCode_lines hparse hends hc hfds ⟨_, rfl, rfl⟩ rfl h

/-- A script with an assignment, a blank line, a command that fails, a line that ends the session,
and one behind it. -/
def failAndExit : Text := "A=1\n\ncd none\nexit\nA=2".toList

/-- The script in a new session: both ways it leaves with the number of the command that fails. -/
theorem runText_of_runLine_failAndExit :
    (∀ line ∈ linesOf failAndExit, ∃ r, parseLine line = .ok r) ∧
    (∀ line ∈ linesOf failAndExit, line.getLast? = some '\n' → EndsLine line) ∧
    (∃ n n', (Shell.ofSettings .standard).runLine failAndExit
        (Machine.boot .standard FileTree.home [] [] [] []) = .ok .terminate n ∧
      (Shell.ofSettings .standard).runUntilEnd false (linesOf failAndExit)
        (Machine.boot .standard FileTree.home [] [] [] []) = .ok true n' ∧
      n.proc.table.get? ['A'] = some ['1'] ∧ n.Akin n' ∧ n'.proc = n.proc) ∧
    ∃ n', CommandLine.exitCode [] false failAndExit
      (Machine.boot .standard FileTree.home [] [] [] []) = .ok 1 n' := by
  have hparse : ∀ line ∈ linesOf failAndExit, ∃ r, parseLine line = .ok r := by
    have hall : ∀ line ∈ linesOf failAndExit, (parseLine line).isOk = true := by decide +kernel
    intro line hl
    cases hr : parseLine line with
    | ok r => exact ⟨r, rfl⟩
    | error e => simpa [hr, Except.isOk, Except.toBool] using hall line hl
  have hends : ∀ line ∈ linesOf failAndExit, line.getLast? = some '\n' → EndsLine line := by
    have hlines : linesOf failAndExit
        = ["A=1\n".toList, ['\n'], "cd none\n".toList, "exit\n".toList, "A=2".toList] := by decide
    rw [hlines]
    simp only [List.forall_mem_cons]
    refine ⟨fun _ => ⟨[⟨.word [.lit "A=1".toList], "A=1".toList, 0⟩], ⟨.newline, ['\n'], 3⟩,
      ⟨.eof, [], 4⟩, by decide +kernel, rfl⟩, ?_⟩
    refine ⟨fun _ => ⟨[], ⟨.newline, ['\n'], 0⟩, ⟨.eof, [], 1⟩, by decide +kernel, rfl⟩, ?_⟩
    refine ⟨fun _ => ⟨[⟨.word [.lit "cd".toList], "cd".toList, 0⟩,
      ⟨.word [.lit "none".toList], "none".toList, 3⟩], ⟨.newline, ['\n'], 7⟩,
      ⟨.eof, [], 8⟩, by decide +kernel, rfl⟩, ?_⟩
    refine ⟨fun _ => ⟨[⟨.word [.lit "exit".toList], "exit".toList, 0⟩], ⟨.newline, ['\n'], 4⟩,
      ⟨.eof, [], 5⟩, by decide +kernel, rfl⟩, ?_⟩
    exact ⟨fun h => by simp at h, by simp⟩
  have hsame := runText_of_runLine hparse hends
  refine ⟨hparse, hends, ?_, ?_⟩
  · have hd : (Machine.boot .standard FileTree.home [] [] [] []).Discreet := by
      refine Or.inl fun k hk => ?_
      simp [Machine.boot] at hk
    have hrun : (match (Shell.ofSettings .standard).runLine failAndExit
          (Machine.boot .standard FileTree.home [] [] [] []) with
        | .ok .terminate n => decide (n.proc.table.get? ['A'] = some ['1'])
        | _ => false) = true := by decide +kernel
    split at hrun
    · next n hn =>
      obtain ⟨n', hlines, -, hakin, hproc⟩ := hsame.1 _ _ n _ hd hn
      exact ⟨n, n', hn, hlines, of_decide_eq_true hrun, hakin, hproc⟩
    · simp at hrun
  · have hchoices : readArguments ["-c".toList, failAndExit] = .ok ⟨some failAndExit, false, 0⟩ := by
      decide +kernel
    have hrun : (match CommandLine.exitCode ["-c".toList, failAndExit] false []
          (Machine.boot .standard FileTree.home [] [] [] []) with
        | .ok 1 _ => true
        | _ => false) = true := by decide +kernel
    split at hrun
    · next n hn =>
      obtain ⟨n', hn', -⟩ := hsame.2 _ _ _ _ _ _ _ _ _ _ n hchoices hn
      exact ⟨n', hn'⟩
    · simp at hrun

end LineShell
