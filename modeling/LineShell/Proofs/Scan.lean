import LineShell.Proofs.Scope
import LineShell.Proofs.Script

/-!
# Lines as a scan

A line without `&` is run from left to right. What pipes join is a unit; between two units stands
a separator, `&&` or `||`, and it says whether the next unit is run after a unit, or a run of
units, that ended with a number. The tree of a line nests these operators by how tightly they
bind, and a side that is skipped passes on the number of the other side; both come to the same.

## The model

* `Units` are a first unit and further ones, each with the operator in front of it. `Chain.units`
  reads them off a row of commands, where a unit goes on as long as there are pipes, and
  `Tree.units` off a tree.
* `scanRest` goes through units with the status of what was run so far: it runs a unit if its
  operator admits that number, skips it otherwise, and stops at the end of the session.
  `Shell.scanLine` runs a line so.
* `AgreesIf` says that two actions come to the same but for the log if a condition holds, or else
  as long as the first one answers.

## What is proved

* The units of a line without parallel pairs are those of its tree (`Tree.Normal.units_eq`), and
  to the right of a conditional that is skipped stands one unit alone (`Tree.Normal.units_right`).
* A pair agrees with whatever its sides agree with (`runPair_agreesIf`), so a tree of a line runs
  as its units are gone through (`execute_units`). The induction is on the tree: its left side
  comes to the status with which the scan meets the operator of the pair.
* A line that can be read has one flat reading, and its tree is that of the row
  (`flat_of_parseLine`).

## What is left out

Where an operator is not registered, a tree fails before its sides run, while the scan would run
the first units. So the two are compared where all serial operators are registered, or where the
line answers.
-/

namespace LineShell

open Act

/-! ### Units -/

/-- A first unit of a line, and further units with the operator in front of each. -/
structure Units where
  /-- The first unit. -/
  first : Tree
  /-- The others, from left to right. -/
  rest : List (Operator × Tree)
  deriving DecidableEq, Repr

/-- Units with an operator and further units behind them. -/
def Units.join (op : Operator) (a b : Units) : Units :=
  ⟨a.first, a.rest ++ (op, b.first) :: b.rest⟩

/-- The units of commands in a row, where the first unit begins with a given tree: each one is as
long as there are pipes. -/
def unitsFrom (u : Tree) : List (Operator × Command) → Units
  | [] => ⟨u, []⟩
  | (op, c) :: links =>
    if op = .pipe then unitsFrom (.binary none .pipe u (.leaf none c)) links
    else .join op ⟨u, []⟩ (unitsFrom (.leaf none c) links)

/-- The units of a line that is read as commands in a row. -/
def Chain.units (chain : Chain) : Units := unitsFrom (.leaf none chain.first) chain.links

/-- The units of a tree: what its serial operators join. -/
def Tree.units : Tree → Units
  | .binary mark op l r => if op.forks then ⟨.binary mark op l r, []⟩ else .join op l.units r.units
  | t => ⟨t, []⟩

theorem unitsFrom_append {op : Operator} (hop : op ≠ .pipe) (u : Tree) (c : Command)
    (ks ls : List (Operator × Command)) :
    unitsFrom u (ks ++ (op, c) :: ls) = .join op (unitsFrom u ks) (unitsFrom (.leaf none c) ls) := by
  induction ks generalizing u with
  | nil => exact if_neg hop
  | cons k ks ih =>
    obtain ⟨o, d⟩ := k
    by_cases ho : o = .pipe
    · simp only [List.cons_append, unitsFrom, if_pos ho, ih]
    · simp [unitsFrom, if_neg ho, ih, Units.join]

/-- A unit that has nothing behind it takes one more command behind a pipe. -/
theorem unitsFrom_pipe {u v : Tree} {ks : List (Operator × Command)}
    (h : unitsFrom u ks = ⟨v, []⟩) (c : Command) :
    unitsFrom u (ks ++ [(.pipe, c)]) = ⟨.binary none .pipe v (.leaf none c), []⟩ := by
  induction ks generalizing u with
  | nil =>
    obtain ⟨rfl, -⟩ := Units.mk.inj h
    rfl
  | cons k ks ih =>
    obtain ⟨o, d⟩ := k
    by_cases ho : o = .pipe
    · rw [unitsFrom, if_pos ho] at h
      rw [List.cons_append, unitsFrom, if_pos ho]
      exact ih h
    · rw [unitsFrom, if_neg ho] at h
      simp [Units.join] at h

namespace Tree

/-- The units of a line without parallel pairs are those of its tree. -/
theorem Normal.units_eq {t : Tree} {chain : Chain} (hn : t.Normal) (hu : t.unmarked = t)
    (h : t.toChain? = some chain) (hpar : ∀ k ∈ chain.links, k.1 ≠ .parallel) :
    chain.units = t.units := by
  induction t generalizing chain with
  | bare mark => exact hn.elim
  | leaf mark c =>
    obtain ⟨rfl, -⟩ := Tree.leaf.inj hu
    obtain rfl := Option.some.inj h
    rfl
  | binary mark op l r ihl ihr =>
    obtain ⟨rfl, -, hul, hur⟩ := Tree.binary.inj hu
    obtain ⟨hfits, hnl, hnr⟩ := hn
    cases ha : l.toChain? with
    | none => simp [toChain?, ha] at h
    | some a =>
      cases hb : r.toChain? with
      | none => simp [toChain?, ha, hb] at h
      | some b =>
        obtain rfl : Chain.mk a.first (a.links ++ (op, b.first) :: b.links) = chain := by
          simpa [toChain?, ha, hb] using h
        have hl : a.units = l.units := ihl hnl hul ha fun k hk => hpar k (by simp [hk])
        have hr : b.units = r.units := ihr hnr hur hb fun k hk => hpar k (by simp [hk])
        by_cases hop : op = .pipe
        · subst hop
          obtain ⟨hleft, hright⟩ := hfits
          have hlone : l.units = ⟨l, []⟩ := by
            cases l with
            | leaf mark c => rfl
            | bare mark => rfl
            | binary mark o x y =>
              obtain rfl : o = .pipe := by simpa [root?, isLeaf] using hleft
              rfl
          cases r with
          | bare mark => exact hnr.elim
          | binary mark o x y => simp [isLeaf] at hright
          | leaf mark c =>
            obtain ⟨rfl, -⟩ := Tree.leaf.inj hur
            obtain rfl := Option.some.inj hb
            exact unitsFrom_pipe (hl.trans hlone) c
        · have hserial : op.forks = false := by
            have := hpar (op, b.first) (by simp)
            cases op <;> simp_all [Operator.forks]
          show unitsFrom _ _ = _
          rw [unitsFrom_append hop, units, if_neg (by simp [hserial]), ← hl, ← hr]
          rfl

end Tree

/-- The units of `a | b && c ; d`. -/
example (a b c d : Command) :
    Chain.units ⟨a, [(.pipe, b), (.conditionalAnd, c), (.sequential, d)]⟩
      = ⟨.binary none .pipe (.leaf none a) (.leaf none b),
        [(.conditionalAnd, .leaf none c), (.sequential, .leaf none d)]⟩ := rfl

/-! ### The scan -/

/-- Nothing but a single command or a pipe stands to the right of a conditional in a line. -/
theorem Tree.Normal.units_right {op : Operator} {l r : Tree} (hr : r.Normal) (h : Tree.Fits op l r) {n : Int}
    (hskip : op.admits n = false) : r.units = ⟨r, []⟩ := by
  have hop : op = .conditionalAnd ∨ op = .conditionalOr := by
    cases op <;> simp_all [Operator.admits]
  cases r with
  | leaf mark c => rfl
  | bare mark => exact hr.elim
  | binary mark o x y =>
    cases o with
    | pipe => rfl
    | parallel => rfl
    | sequential => rcases hop with rfl | rfl <;> simp [Tree.Fits, Tree.root?] at h
    | conditionalAnd => rcases hop with rfl | rfl <;> simp [Tree.Fits, Tree.root?] at h
    | conditionalOr => rcases hop with rfl | rfl <;> simp [Tree.Fits, Tree.root?] at h

/-- Goes through further units from left to right, with the status of what was run before them:
each unit that its operator admits is run, until one ends the session. -/
def scanRest (rules : Rules) : Status → List (Operator × Tree) → Act Status
  | s, [] => return s
  | .terminate, _ :: _ => return .terminate
  | .code n, (op, u) :: rest => do
    if op.admits n then scanRest rules (← execute rules u 0) rest
    else scanRest rules (.code n) rest

/-- Runs the first unit, and goes through the others. -/
def Units.scan (rules : Rules) (units : Units) : Act Status := do
  scanRest rules (← execute rules units.first 0) units.rest

/-- Runs the units of a line. The last number of the session goes to the commands of the line and
comes back from them. -/
def Shell.scanLine (shell : Shell) (units : Units) : Act Status := do
  modifyProc fun p => { p with commandLast := p.sessionLast }
  let status ← units.scan shell.rules
  modifyProc fun p => { p with sessionLast := p.commandLast }
  return status

theorem scanRest_terminate (rules : Rules) (rest : List (Operator × Tree)) :
    scanRest rules .terminate rest = return .terminate := by
  cases rest <;> rfl

theorem scanRest_append (rules : Rules) (s : Status) (xs ys : List (Operator × Tree)) :
    scanRest rules s (xs ++ ys) = scanRest rules s xs >>= fun s => scanRest rules s ys := by
  induction xs generalizing s with
  | nil => rfl
  | cons x xs ih =>
    obtain ⟨op, u⟩ := x
    cases s with
    | terminate =>
      rw [scanRest_terminate, scanRest_terminate, pure_bind, scanRest_terminate]
    | code n =>
      rw [List.cons_append, scanRest, scanRest]
      split
      · simp only [ih, bind_assoc]
      · exact ih (.code n)

theorem Units.scan_join (rules : Rules) (op : Operator) (a b : Units) :
    (Units.join op a b).scan rules
      = a.scan rules >>= fun s => scanRest rules s ((op, b.first) :: b.rest) := by
  simp only [scan, join, scanRest_append, bind_assoc]

/-! ### Actions that agree as far as one of them answers -/

/-- Two actions that do the same but for what they log, from certain descriptors on and where the log
is discreet, if `p` holds, or else as long as the first one answers. -/
def AgreesIf {α : Type} (p : Prop) (s : Descriptors) (a b : Act α) : Prop :=
  ∀ m m', Outset s (s.get? 2) m m' → (p ∨ ∃ x n, a m = .ok x n) → Agree (a m) (b m')

namespace AgreesIf

variable {α β : Type} {p : Prop} {s : Descriptors} {a b : Act α} {f g : α → Act β}

theorem of_agreesFrom (h : AgreesFrom s (s.get? 2) a b) : AgreesIf p s a b := fun m m' hm _ => h m m' hm

theorem bind (h : AgreesIf p s a b) (hr : Restores a) (hg : Keeps Grown a)
    (hf : ∀ x, AgreesIf p s (f x) (g x)) : AgreesIf p s (a >>= f) (b >>= g) := by
  intro m m' hm hok
  have hfirst : p ∨ ∃ x n, a m = .ok x n := by
    refine hok.imp_right ?_
    rintro ⟨y, n, h⟩
    obtain ⟨x, m₁, ha, -⟩ := bind_eq_ok.1 h
    exact ⟨x, m₁, ha⟩
  refine (h m m' hm hfirst).bind fun x n n' ha hn => ?_
  refine hf x n n' (Outset.stays hr hg hm ha hn) (hok.imp_right ?_)
  rintro ⟨y, k, h⟩
  refine ⟨y, k, ?_⟩
  rwa [bind_eq, ha] at h

end AgreesIf

/-! ### Serial operators -/

/-- A serial pair answers as its left side, which ended the session or has the right side skipped,
or as its right side. -/
theorem combine_eq_ok_of_serial {op : Operator} (hop : op.forks = false) {a b : Act Status}
    {m m' : Machine} {s : Status} (h : combine op a b m = .ok s m') :
    (s = .terminate ∧ a m = .ok .terminate m') ∨ ∃ number m₁, a m = .ok (.code number) m₁ ∧
      (op.admits number = false ∧ s = .code number ∧
        (∃ logger message, debug logger message m₁ = .ok () m') ∨
      op.admits number = true ∧ b m₁ = .ok s m') := by
  rw [combine_of_serial hop] at h
  obtain ⟨s₁, m₁, hleft, hrest⟩ := bind_eq_ok.1 h
  cases s₁ with
  | terminate =>
    obtain ⟨rfl, rfl⟩ := EStateM.Result.ok.inj (hrest : EStateM.Result.ok Status.terminate _ = _)
    exact Or.inl ⟨rfl, hleft⟩
  | code number =>
    refine Or.inr ⟨number, m₁, hleft, ?_⟩
    dsimp only at hrest
    cases hadmits : op.admits number with
    | true =>
      rw [hadmits, if_pos rfl] at hrest
      exact Or.inr ⟨rfl, hrest⟩
    | false =>
      obtain ⟨logger, message, hpass⟩ := Operator.pass_of_skip hadmits
      rw [hadmits, if_neg (by simp), hpass] at hrest
      obtain ⟨_, m₂, hlog, hret⟩ := bind_eq_ok.1 hrest
      obtain ⟨rfl, rfl⟩ :=
        EStateM.Result.ok.inj (hret : EStateM.Result.ok (Status.code number) _ = _)
      exact Or.inl ⟨rfl, rfl, logger, message, hlog⟩

/-- A serial pair answers with a number that is kept already, since one of its sides did. -/
theorem Settles.combine {op : Operator} (h : op.forks = false) {a b : Act Status}
    (ha : Settles a) (hb : Settles b) : Settles (LineShell.combine op a b) := by
  intro m n m' hm
  rcases combine_eq_ok_of_serial h hm with ⟨hend, -⟩ | ⟨k, m₁, hleft, hrest⟩
  · exact nomatch hend
  · rcases hrest with ⟨-, hn, logger, message, hlog⟩ | ⟨-, hright⟩
    · rw [debug_idle hlog, Status.code.inj hn]
      exact ha m k m₁ hleft
    · exact hb m₁ n m' hright

/-- All operators that run their sides in the running process are registered. -/
def Rules.Serial (rules : Rules) : Prop := ∀ op : Operator, op.forks = false → op ∈ rules.operators

/-- A pair agrees with whatever its sides agree with. -/
theorem runPair_agreesIf {rules : Rules} {op : Operator} (hserial : op.forks = false)
    {shown : Text} {level : Int} {a b c : Act Status} {s : Descriptors}
    (h : AgreesIf rules.Serial s (combine op a b) c) (hr : Restores (combine op a b))
    (hg : Keeps Grown (combine op a b)) (hs : Settles (combine op a b)) :
    AgreesIf rules.Serial s (rules.runPair op shown level a b) c := by
  intro m m' hm hok
  have hop : op ∈ rules.operators := by
    rcases hok with hall | ⟨status, n, hrun⟩
    · exact hall op hserial
    · exact registered_of_runPair hrun
  obtain ⟨d, hd, hsides, hagree⟩ :=
    exists_runPair (AgreesFrom.debug_left s) hop shown level (Outset.stays hr hg) hs hm
  refine hagree c (h d m' hd (hok.imp_right ?_))
  rintro ⟨status, n, hrun⟩
  exact hsides status n hrun

/-! ### Trees and lines -/

/-- A tree of a line runs as its units are gone through. The induction follows the tree: its left
side comes to the status with which the scan meets the operator of the pair, and what is behind that
operator is the right side. -/
theorem execute_units (rules : Rules) {t : Tree} (hn : t.Normal) (hu : t.unmarked = t) (level : Int)
    (s : Descriptors) : AgreesIf rules.Serial s (execute rules t level) (t.units.scan rules) := by
  have hone {t : Tree} (hu : t.unmarked = t) (level : Int) :
      AgreesIf rules.Serial s (execute rules t level) (Units.scan rules ⟨t, []⟩) := by
    have hscan : Units.scan rules ⟨t, []⟩ = execute rules t 0 := bind_pure _
    rw [hscan]
    exact .of_agreesFrom ((execute_twins rules (Tree.firstShared_unmarked hu) level 0).agrees s)
  induction t generalizing level with
  | leaf mark c => exact hone hu level
  | bare mark => exact hn.elim
  | binary mark op l r ihl ihr =>
    by_cases hforks : op.forks = true
    · rw [Tree.units, if_pos hforks]
      exact hone hu level
    · have hserial := Bool.eq_false_iff.2 hforks
      obtain ⟨rfl, -, hul, hur⟩ := Tree.binary.inj hu
      obtain ⟨hfits, hnl, hnr⟩ := hn
      have hl := ihl hnl hul (level + 1)
      have hr := ihr hnr hur (level + 1)
      have hruns := (execute_runs rules l (level + 1)).combine (execute_runs rules r (level + 1)) op
      have hfollowed := Keeps.combine_followed (execute_followed rules l (level + 1))
        (execute_followed rules r (level + 1)) op
      rw [execute_pair rules (Tree.firstShared_unmarked hu), Tree.units, if_neg hforks, Units.scan_join]
      refine runPair_agreesIf hserial ?_ hruns.restores hfollowed.grows
        (.combine hserial (execute_settles rules l _) (execute_settles rules r _))
      rw [combine_of_serial hserial]
      refine hl.bind (execute_runs rules l _).restores (execute_followed rules l _).grows fun status => ?_
      cases status with
      | terminate => exact .of_agreesFrom (.hosted (.pure _))
      | code n =>
        rw [scanRest]
        dsimp only
        cases hadmits : op.admits n with
        | true => exact hr
        | false =>
          rw [hnr.units_right hfits hadmits, if_neg (by simp)]
          exact .of_agreesFrom (pass_left (AgreesFrom.debug_left s) hadmits)

namespace Shell

variable (shell : Shell)

/-- A line with commands is run as the units of its tree are gone through. -/
theorem runLine_units {line : Text} {t : Tree} (hp : parseLine line = .ok (some t)) {m : Machine}
    (hd : m.Discreet) (hok : shell.rules.Serial ∨ ∃ status n, shell.runLine line m = .ok status n) :
    Agree (shell.runLine line m) (shell.scanLine t.units m) := by
  obtain ⟨hnormal, hunmarked⟩ := normal_of_parseLine hp
  obtain ⟨d, hdebug, hakin, hproc, hx⟩ := debug_aside (.refl m) hd logger
    ("Command tree:\n".toList ++ t.outline 0)
  have hrun : shell.runLine line m = (execute shell.rules t 0 >>= fun status => do
      modifyProc fun p => { p with sessionLast := p.commandLast }
      return status) d.handed := by
    unfold runLine
    rw [hp]
    show (debug _ _ >>= _) m = _
    rw [bind_eq, hdebug]
    rfl
  have hscan : shell.scanLine t.units m = (t.units.scan shell.rules >>= fun status => do
      modifyProc fun p => { p with sessionLast := p.commandLast }
      return status) m.handed := rfl
  have hexec : shell.rules.Serial ∨ ∃ status n, execute shell.rules t 0 d.handed = .ok status n := by
    refine hok.imp_right ?_
    rintro ⟨status, n, h⟩
    rw [hrun] at h
    obtain ⟨status, n, h, -⟩ := bind_eq_ok.1 h
    exact ⟨status, n, h⟩
  have hunits := execute_units shell.rules hnormal hunmarked 0 d.handed.proc.fds d.handed m.handed
    ⟨rfl, hx, hakin.handed (by rw [hproc])⟩ hexec
  rw [hrun, hscan]
  exact hunits.bind fun status n n' _ hn => .ok ((hn.session _).symm.session _).symm

/-- Behind a scan the session and its commands have the same last number. -/
theorem scanLine_settled {units : Units} {m n : Machine} {status : Status}
    (h : shell.scanLine units m = .ok status n) : n.Settled := by
  obtain ⟨_, m₁, -, h⟩ := bind_eq_ok.1 h
  obtain ⟨s, m₂, -, h⟩ := bind_eq_ok.1 h
  obtain ⟨-, rfl⟩ := EStateM.Result.ok.inj (h : EStateM.Result.ok s _ = _)
  rfl

end Shell

namespace Grammar

/-- Where no token is `&`, no link of the row is one. -/
theorem Links.ne_parallel {ts : List Token} {ls : List (Operator × Command)} (h : Links ts ls)
    (hts : ∀ t ∈ ts, t.lexeme ≠ .parallel) : ∀ l ∈ ls, l.1 ≠ .parallel := by
  induction h with
  | nil => simp
  | @cons op c js us vs ls hj _ _ ih =>
    refine List.forall_mem_cons.2 ⟨?_, ih fun t ht => hts t (List.mem_append_right _ ht)⟩
    rintro rfl
    cases hj with
    | @symbol _ t ht =>
      refine hts t (by simp) ?_
      cases hl : t.lexeme <;> simp_all [Lexeme.joins?]

end Grammar

/-- A line that is read as a tree has one flat reading, and its tree is that of the row. -/
theorem flat_of_parseLine {line : Text} {t : Tree} (hp : parseLine line = .ok (some t))
    {tokens : List Token} (htokens : tokenize line = .ok tokens) :
    ∃ chain : Chain, (∀ other, Grammar.Flat (beforeEnd tokens) other ↔ other = chain) ∧
      t = chain.toTree := by
  obtain ⟨ts, e, htokens', he, hts⟩ := exists_tokens_of_parseLine hp
  obtain rfl := Except.ok.inj (htokens.symm.trans htokens')
  have hbefore : beforeEnd (ts ++ [e]) = ts := by
    have hall : ∀ t ∈ ts, (t.lexeme != .eof) = true := by simpa using hts
    unfold beforeEnd
    rw [List.takeWhile_append_of_pos hall]
    simp [he]
  rw [hbefore]
  rw [parseLine_of_tokenize htokens' he] at hp
  have hflat := Grammar.readWith_eq_some_iff hts e
  cases hr : (Chain.readWith e ts).1 with
  | error err => simp [hr] at hp
  | ok read =>
    cases read with
    | none => simp [hr] at hp
    | some chain =>
      refine ⟨chain, fun other => ?_, by simpa [hr] using hp.symm⟩
      rw [← hflat, hr]
      simp [eq_comm]

/-- **Main result**: a line without `&` is read as commands in a row in one way. To run it is to go
through the units of that row from left to right. Where the line answers, the scan answers alike:
the same system calls are made in the same order, and both end in machines that differ in the log
alone, with the same process. Where all serial operators are registered, as they are in a session,
both fail alike as well.

The machines that a session comes to are discreet: it starts in one
(`CommandLine.discreet_of_start`) and its lines lead to such machines (`Shell.runLine_discreet`). -/
theorem runLine_scan {line : Text} {t : Tree} (hp : parseLine line = .ok (some t))
    {tokens : List Token} (htokens : tokenize line = .ok tokens)
    (hpar : ∀ k ∈ tokens, k.lexeme ≠ .parallel) :
    ∃ chain : Chain, (∀ other, Grammar.Flat (beforeEnd tokens) other ↔ other = chain) ∧
      ∀ (shell : Shell) (m : Machine), m.Discreet →
        (∀ status n, shell.runLine line m = .ok status n →
          ∃ n', shell.scanLine chain.units m = .ok status n' ∧ n.Akin n' ∧ n'.proc = n.proc) ∧
        (shell.rules.Serial → Agree (shell.runLine line m) (shell.scanLine chain.units m)) := by
  obtain ⟨chain, hflat, rfl⟩ := flat_of_parseLine hp htokens
  obtain ⟨hnormal, hunmarked⟩ := normal_of_parseLine hp
  have hlinks : ∀ l ∈ chain.links, l.1 ≠ .parallel := by
    obtain ⟨as, us, bs, hts, -, ⟨_, vs, rfl, -, hl⟩, -⟩ := (hflat chain).2 rfl
    refine hl.ne_parallel fun k hk => hpar k ?_
    have hmem : k ∈ beforeEnd tokens := by
      rw [hts]
      simp [hk]
    exact (List.takeWhile_sublist _).subset hmem
  have hunits : chain.units = chain.toTree.units :=
    hnormal.units_eq hunmarked chain.toChain?_toTree hlinks
  refine ⟨chain, hflat, fun shell m hd => ⟨fun status n h => ?_, fun hserial => ?_⟩⟩
  · obtain ⟨n', hscan, hakin⟩ :=
      (shell.runLine_units hp hd (Or.inr ⟨status, n, h⟩)).exists_right h
    rw [← hunits] at hscan
    have hsettled := shell.runLine_settled hp h
    have hsettled' := shell.scanLine_settled hscan
    refine ⟨n', hscan, hakin, hakin.proc_eq ?_⟩
    obtain ⟨_, _, _, rfl, -⟩ := hakin
    exact hsettled'.symm.trans hsettled
  · rw [hunits]
    exact shell.runLine_units hp hd (Or.inl hserial)

/-- A line with a command that fails, one that is run instead, a pipe, a unit that is skipped, the
end of the session, and a command behind it. -/
def mixedLine : Text := "cd none || A=1 && echo $A | cat || cd /; exit\nA=2".toList

/-- That line in a new session. -/
theorem runLine_scan_mixedLine :
    let m := Machine.boot .standard FileTree.home [] [] [] []
    ∃ t tokens chain n n', parseLine mixedLine = .ok (some t) ∧
      tokenize mixedLine = .ok tokens ∧ (∀ k ∈ tokens, k.lexeme ≠ .parallel) ∧
      Grammar.Flat (beforeEnd tokens) chain ∧
      (Shell.ofSettings .standard).runLine mixedLine m = .ok .terminate n ∧
      (Shell.ofSettings .standard).scanLine chain.units m = .ok .terminate n' ∧
      n.world.output = encode "1\n".toList ∧ n.proc.table.get? ['A'] = some ['1'] ∧
      n.Akin n' ∧ n'.proc = n.proc := by
  intro m
  have hparse : ((parseLine mixedLine).toOption.join).isSome = true := by decide +kernel
  have htokens : ∃ tokens, tokenize mixedLine = .ok tokens ∧ ∀ k ∈ tokens, k.lexeme ≠ .parallel := by
    have hall : (tokenize mixedLine).toOption.any (·.all (·.lexeme != .parallel)) = true := by
      decide +kernel
    cases ht : tokenize mixedLine with
    | error e => simp [ht, Except.toOption] at hall
    | ok tokens =>
      rw [ht] at hall
      exact ⟨tokens, rfl, by simpa [Except.toOption] using hall⟩
  have hrun : (answer? ((Shell.ofSettings .standard).runLine mixedLine m)).any (fun x =>
      x.1 = .terminate ∧ x.2.world.output = encode "1\n".toList ∧
        x.2.proc.table.get? ['A'] = some ['1']) = true := by decide +kernel
  have hd : m.Discreet := by
    refine Or.inl fun k hk => ?_
    simp [m, Machine.boot] at hk
  obtain ⟨tokens, ht, hpar⟩ := htokens
  obtain ⟨⟨status, n⟩, hanswer, hends⟩ := (Option.any_eq_true _ _).1 hrun
  obtain ⟨rfl, hout, hvar⟩ := of_decide_eq_true hends
  have hn := eq_ok_of_answer? hanswer
  cases hp : parseLine mixedLine with
  | error e => simp [hp, Except.toOption] at hparse
  | ok r =>
    cases r with
    | none => simp [hp, Except.toOption] at hparse
    | some t =>
      obtain ⟨chain, hflat, hsame⟩ := runLine_scan hp ht hpar
      obtain ⟨n', hscan, hakin, hproc⟩ := (hsame _ m hd).1 _ n hn
      exact ⟨t, tokens, chain, n, n', rfl, ht, hpar, (hflat chain).2 rfl, hn, hscan, hout, hvar,
        hakin, hproc⟩

end LineShell
