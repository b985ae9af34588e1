import LineShell.Proofs.InStep

/-!
# The log apart

Machines that differ in nothing but the log: in its records, in those of them that are written to
standard error as well, and in the number that a session keeps for its next line. Every action of
the shell takes such machines to such machines and answers alike, so what the log says never
decides what is done.

## The model

* `Aside` relates error outputs that can be made of one another by putting in, and taking out,
  records that tell of no failure and are weighty enough to be echoed.
* `deeds` is the journal without records, without what is written for the log and without the
  number of the session.
* `Machine.Akin` puts these together: the error outputs are aside, the deeds are the same, and
  everything else is equal.
* `Blind` says of the work of a call that it commutes with exchanging the log.

## What is proved

`Machine.Akin` is an equivalence. The work of every call is blind, writes put the same bytes
behind what stands in the error output (`World.write_apart`), reads do not look at it
(`World.read_apart`), and no program does either. So the relation is one under which every call
and every record is in step with itself, and the walk that is made once for such relations applies
to it.

## What is left out

Two runs log the same here. Where one logs more than the other, or something else, what is echoed
may reach a file that a program reads; what has to be asked for that not to happen is said
elsewhere.
-/

namespace LineShell

open Act

/-! ### What differs -/

/-- Whether a record is written to standard error as well. -/
def echoed (threshold : Option Nat) (r : Record) : Bool :=
  (threshold.map fun n => decide (n ≤ r.level.number)).getD false

/-- Error outputs that differ only in records that are written there as well and tell of no
failure: one can be made of the other by putting such records in and taking such records out. -/
inductive Aside (threshold : Option Nat) : Bytes → Bytes → Prop where
  /-- No record. -/
  | refl (a : Bytes) : Aside threshold a a
  /-- One record, put in somewhere. -/
  | record {r : Record} (a b : Bytes) (he : echoed threshold r = true) (hr : r.level ≠ .error) :
      Aside threshold (a ++ b) (a ++ encode (recordLine r) ++ b)
  /-- What was put in is taken out. -/
  | symm {a b : Bytes} : Aside threshold a b → Aside threshold b a
  /-- One record after the other. -/
  | trans {a b c : Bytes} : Aside threshold a b → Aside threshold b c → Aside threshold a c

/-- A process without the number of its session. -/
def Proc.plain (p : Proc) : Proc := { p with sessionLast := 0 }

/-- What an entry of the journal tells of what was done: everything but records, and what is written
for the log. -/
def Entry.deed? : Entry → Option Entry
  | .called pid event => some (.called pid event)
  | .logged _ => none
  | .began p mark command => some (.began p.plain mark command)
  | .entered p argv => some (.entered p.plain argv)
  | .wrote _ _ _ true => none
  | .wrote pid file bytes false => some (.wrote pid file bytes false)
  | .took pid file bytes => some (.took pid file bytes)

/-- What was done, in order: the system calls of all processes, the commands begun, the programs
entered, and the bytes that are read, and written for anything but the log. -/
def deeds (journal : List Entry) : List Entry := journal.filterMap Entry.deed?

/-- A machine with another log. -/
def Machine.apart (m : Machine) (errors : Bytes) (journal : List Entry) (threshold : Option Nat)
    (last : Int) : Machine where
  world := { m.world with errors := errors, journal := journal, echoFrom := threshold }
  proc := { m.proc with sessionLast := last }

/-- Two machines that differ in the log alone. -/
def Machine.Akin (m m' : Machine) : Prop :=
  ∃ errors journal last, m' = m.apart errors journal m.world.echoFrom last ∧
    Aside m.world.echoFrom m.world.errors errors ∧ deeds journal = deeds m.world.journal

/-- The same is written on both sides. -/
theorem Aside.append {threshold : Option Nat} {a b : Bytes} (h : Aside threshold a b) (bs : Bytes) :
    Aside threshold (a ++ bs) (b ++ bs) := by
  induction h with
  | refl a => exact .refl _
  | record a b he hr =>
    rw [List.append_assoc, List.append_assoc]
    exact .record a (b ++ bs) he hr
  | symm _ ih => exact .symm ih
  | trans _ _ ih ih' => exact .trans ih ih'

/-- A record is written on one side. -/
theorem Aside.left {threshold : Option Nat} {a b : Bytes} (h : Aside threshold a b) {r : Record}
    (he : echoed threshold r = true) (hr : r.level ≠ .error) :
    Aside threshold (a ++ encode (recordLine r)) b := by
  have hrecord := Aside.record a [] he hr
  rw [List.append_nil, List.append_nil] at hrecord
  exact .trans (.symm hrecord) h

/-- Where no such record is written out there is no difference. -/
theorem Aside.eq {threshold : Option Nat} {a b : Bytes} (h : Aside threshold a b)
    (hq : ∀ n, threshold = some n → Level.info.number < n) : a = b := by
  have hnone {r : Record} (he : echoed threshold r = true) (hr : r.level ≠ .error) : False := by
    cases hn : threshold with
    | none => simp [hn, echoed] at he
    | some n =>
      have hlt := hq n hn
      have hle : n ≤ r.level.number := by simpa [hn, echoed] using he
      cases hlevel : r.level with
      | debug => simp [hlevel, Level.number] at hle hlt; omega
      | info => simp [hlevel, Level.number] at hle hlt; omega
      | error => exact hr hlevel
  induction h with
  | refl => rfl
  | record a b he hr => exact (hnone he hr).elim
  | symm _ ih => exact ih.symm
  | trans _ _ ih ih' => exact ih.trans ih'

namespace Machine.Akin

variable {m m' : Machine}

theorem refl (m : Machine) : m.Akin m :=
  ⟨m.world.errors, m.world.journal, m.proc.sessionLast, rfl, .refl _, rfl⟩

theorem symm (h : m.Akin m') : m'.Akin m := by
  obtain ⟨e, j, s, rfl, ha, hd⟩ := h
  exact ⟨m.world.errors, m.world.journal, m.proc.sessionLast, rfl, ha.symm, hd.symm⟩

theorem trans {m'' : Machine} (h : m.Akin m') (h' : m'.Akin m'') : m.Akin m'' := by
  obtain ⟨e, j, s, rfl, ha, hd⟩ := h
  obtain ⟨e', j', s', rfl, ha', hd'⟩ := h'
  exact ⟨e', j', s', rfl, ha.trans ha', hd'.trans hd⟩

/-- Entries that tell of the same deed, or of none. -/
theorem note (h : m.Akin m') {e e' : Entry} (he : e.deed? = e'.deed?) :
    (m.note e).Akin (m'.note e') := by
  obtain ⟨errors, j, s, rfl, ha, hd⟩ := h
  refine ⟨errors, j ++ [e'], s, rfl, ha, ?_⟩
  show deeds (j ++ [e']) = deeds (m.world.journal ++ [e])
  simp only [deeds, List.filterMap_append] at hd ⊢
  rw [hd, List.filterMap_cons, List.filterMap_cons, he]

/-- An entry that tells of no deed may stand on one side alone. -/
theorem note_left (h : m.Akin m') {e : Entry} (he : e.deed? = none) : (m.note e).Akin m' := by
  obtain ⟨errors, j, s, rfl, ha, hd⟩ := h
  refine ⟨errors, j, s, rfl, ha, ?_⟩
  show deeds j = deeds (m.world.journal ++ [e])
  simp only [deeds, List.filterMap_append] at hd ⊢
  rw [hd, List.filterMap_cons, he]
  simp

end Machine.Akin

/-! ### Actions that agree -/

namespace Act

variable {α : Type}

/-- The same answer, or the same failure, on machines that differ in the log alone. -/
abbrev Agree (r r' : EStateM.Result Failure Machine α) : Prop := Both Machine.Akin r r'

/-- Two actions that do the same but for what they log. -/
abbrev Agrees (a b : Act α) : Prop := InStep Machine.Akin Machine.Akin a b

/-- The running processes differ in the number of their session alone. -/
instance : Peers Machine.Akin where
  proc := by
    rintro m m' ⟨e, j, last, rfl, -⟩
    exact ⟨last, rfl⟩

namespace Agrees

theorem note {e e' : Entry} (h : e.deed? = e'.deed?) : Agrees (Act.note e) (Act.note e') :=
  fun _ _ hm => .ok (hm.note h)

theorem called (e : Event) : Agrees (Act.called e) (Act.called e) := by
  rintro m m' hm
  have hpid : m'.proc.pid = m.proc.pid := by
    obtain ⟨_, _, _, rfl, -⟩ := hm
    rfl
  unfold Act.called
  rw [hpid]
  exact note rfl m m' hm

end Agrees

end Act

/-! ### Calls -/

/-- The work of a call that pays no heed to the log. -/
def Blind {α : Type} (work : Machine → Except Errno (α × Machine)) : Prop :=
  ∀ m errors journal threshold last, work (m.apart errors journal threshold last)
    = (work m).map fun r => (r.1, r.2.apart errors journal threshold last)

/-- Such work leaves the log as it is. -/
theorem Blind.apart_eq {α : Type} {work : Machine → Except Errno (α × Machine)} (h : Blind work)
    {m n : Machine} {x : α} (hm : work m = .ok (x, n)) :
    n = n.apart m.world.errors m.world.journal m.world.echoFrom m.proc.sessionLast := by
  have hb := h m m.world.errors m.world.journal m.world.echoFrom m.proc.sessionLast
  have hself : m.apart m.world.errors m.world.journal m.world.echoFrom m.proc.sessionLast = m := rfl
  rw [hself, hm] at hb
  exact (Prod.mk.inj (Except.ok.inj hb)).2

namespace Act.Agrees

variable {α : Type}

theorem call {c : CallName} {event : Except Errno α → Event}
    {work : Machine → Except Errno (α × Machine)} (hw : Blind work) :
    Agrees (Act.call c event work) (Act.call c event work) := by
  rintro m m' ⟨e, j, s, rfl, ha, hd⟩
  generalize ht : m.world.echoFrom = t at ha
  have hcounted : (m.counted c).Akin ((m.apart e j t s).counted c) := by
    subst ht
    exact ⟨e, j, s, rfl, ha, hd⟩
  have hplanned : (m.apart e j t s).world.planned? c = m.world.planned? c := rfl
  unfold Act.call
  rw [hplanned]
  cases m.world.planned? c with
  | some errno => exact .ok (hcounted.note rfl)
  | none =>
    have hblind : work ((m.apart e j t s).counted c)
        = (work (m.counted c)).map fun r => (r.1, r.2.apart e j t s) := hw (m.counted c) e j t s
    dsimp only
    rw [hblind]
    cases hr : work (m.counted c) with
    | error errno => exact .ok (hcounted.note rfl)
    | ok r =>
      obtain ⟨x, n⟩ := r
      -- the work has left the log of either machine as it was
      have hself := hw.apart_eq hr
      have herrors : n.world.errors = m.world.errors := by rw [hself]; rfl
      have hjournal : n.world.journal = m.world.journal := by rw [hself]; rfl
      have hthreshold : n.world.echoFrom = t := by rw [hself]; exact ht
      have hn : n.Akin (n.apart e j t s) := by
        refine ⟨e, j, s, by rw [hthreshold], ?_, by rw [hjournal]; exact hd⟩
        rw [herrors, hthreshold]
        exact ha
      exact .ok (hn.note rfl)

theorem getcwd : Agrees Act.getcwd Act.getcwd :=
  .bind (call fun _ _ _ _ _ => rfl) fun x => .answer _ x

theorem chdir (path : Text) : Agrees (Act.chdir path) (Act.chdir path) := by
  refine .bind (.refuseNul _) fun _ => .bind (call fun m e j t s => ?_) fun x => .answer _ x
  dsimp only [Machine.apart]
  split
  · rfl
  · split
    · split <;> rfl
    · rfl

theorem pipe : Agrees Act.pipe Act.pipe :=
  .bind (call fun _ _ _ _ _ => rfl) fun x => .answer _ x

theorem dup (source target : Nat) : Agrees (Act.dup source target) (Act.dup source target) := by
  refine .bind (call fun m e j t s => ?_) fun x => .answer _ x
  dsimp only [Machine.apart]
  split <;> rfl

theorem close (fd : Nat) : Agrees (Act.close fd) (Act.close fd) := by
  refine .bind (call fun m e j t s => ?_) fun x => .answer _ x
  dsimp only [Machine.apart]
  split <;> rfl

theorem openFile (path : Text) (mode : OpenMode) :
    Agrees (Act.openFile path mode) (Act.openFile path mode) := by
  refine .bind (.refuseNul _) fun _ => .bind (call fun m e j t s => ?_) fun x => .answer _ x
  dsimp only [Machine.apart]
  split
  · rfl
  · split <;> rfl

theorem wait (pid : Nat) : Agrees (Act.wait pid) (Act.wait pid) := by
  refine .bind (call fun m e j t s => ?_) fun x => .answer _ x
  dsimp only [Machine.apart]
  split <;> rfl

end Act.Agrees

/-! ### Reading and writing -/

/-- What is written to the error output is put behind what stands there, and no write depends on
what stands there. -/
theorem World.write_apart (w : World) (file : Nat) (bs e : Bytes) (j : List Entry) :
    (∃ errno, w.write file bs = .error errno ∧
      ({ w with errors := e, journal := j } : World).write file bs = .error errno) ∨
    ∃ v tail, w.write file bs = .ok v ∧ v.errors = w.errors ++ tail ∧ v.journal = w.journal ∧
      v.echoFrom = w.echoFrom ∧
      ({ w with errors := e, journal := j } : World).write file bs
        = .ok { v with errors := e ++ tail, journal := j } := by
  unfold write
  dsimp only
  cases w.opened[file]? with
  | none => exact Or.inl ⟨_, rfl, rfl⟩
  | some f =>
    dsimp only
    split
    · exact Or.inl ⟨_, rfl, rfl⟩
    cases f.target with
    | errors => exact Or.inr ⟨_, bs, rfl, rfl, rfl, rfl, rfl⟩
    | output => exact Or.inr ⟨_, [], rfl, by simp, rfl, rfl, by simp⟩
    | null => exact Or.inr ⟨_, [], rfl, by simp, rfl, rfl, by simp⟩
    | writeEnd n => exact Or.inr ⟨_, [], rfl, by simp, rfl, rfl, by simp⟩
    | readEnd n => exact Or.inl ⟨_, rfl, rfl⟩
    | input => exact Or.inl ⟨_, rfl, rfl⟩
    | place p =>
      dsimp only
      split
      · exact Or.inr ⟨_, [], rfl, by simp, rfl, rfl, by simp⟩
      · exact Or.inl ⟨_, rfl, rfl⟩

/-- No read depends on what stands in the error output, and none changes it. -/
theorem World.read_apart (w : World) (file : Nat) (part : Bytes → Bytes) (e : Bytes)
    (j : List Entry) :
    (∃ errno, w.read file part = .error errno ∧
      ({ w with errors := e, journal := j } : World).read file part = .error errno) ∨
    ∃ v bs, w.read file part = .ok (bs, v) ∧ v.errors = w.errors ∧ v.journal = w.journal ∧
      v.echoFrom = w.echoFrom ∧
      ({ w with errors := e, journal := j } : World).read file part
        = .ok (bs, { v with errors := e, journal := j }) := by
  unfold read
  dsimp only
  cases w.opened[file]? with
  | none => exact Or.inl ⟨_, rfl, rfl⟩
  | some f =>
    dsimp only
    split
    · exact Or.inl ⟨_, rfl, rfl⟩
    cases f.target with
    | input => exact Or.inr ⟨_, _, rfl, rfl, rfl, rfl, rfl⟩
    | null => exact Or.inr ⟨_, _, rfl, rfl, rfl, rfl, rfl⟩
    | readEnd n => exact Or.inr ⟨_, _, rfl, rfl, rfl, rfl, rfl⟩
    | writeEnd n => exact Or.inl ⟨_, rfl, rfl⟩
    | output => exact Or.inl ⟨_, rfl, rfl⟩
    | errors => exact Or.inl ⟨_, rfl, rfl⟩
    | place p =>
      dsimp only
      split
      · exact Or.inr ⟨_, _, rfl, rfl, rfl, rfl, rfl⟩
      · exact Or.inl ⟨_, rfl, rfl⟩

namespace Machine.Akin

variable {m m' : Machine}

theorem write (h : m.Akin m') (log : Bool) (fd : Nat) (bs : Bytes) :
    (∃ errno, m.write log fd bs = .error errno ∧ m'.write log fd bs = .error errno) ∨
      ∃ n n', m.write log fd bs = .ok n ∧ m'.write log fd bs = .ok n' ∧ n.Akin n' := by
  obtain ⟨e, j, s, rfl, ha, hd⟩ := h
  unfold Machine.write
  dsimp only [apart]
  cases m.proc.fds.get? fd with
  | none => exact Or.inl ⟨_, rfl, rfl⟩
  | some file =>
    dsimp only
    rcases m.world.write_apart file bs e j with ⟨errno, hw, hw'⟩ | ⟨v, tail, hw, he, hj, ht, hw'⟩
    · rw [hw, hw']
      exact Or.inl ⟨errno, rfl, rfl⟩
    · rw [hw, hw']
      refine Or.inr ⟨_, _, rfl, rfl, ?_⟩
      have hakin : Akin { m with world := v } { m with
          world := { v with errors := e ++ tail, journal := j }, proc.sessionLast := s } := by
        refine ⟨e ++ tail, j, s, rfl, ?_, by rw [hd, ← hj]⟩
        show Aside v.echoFrom v.errors _
        rw [he, ht]
        exact ha.append tail
      exact hakin.note rfl

theorem read (h : m.Akin m') (fd : Nat) (part : Bytes → Bytes) :
    (∃ errno, m.read fd part = .error errno ∧ m'.read fd part = .error errno) ∨
      ∃ bs n n', m.read fd part = .ok (bs, n) ∧ m'.read fd part = .ok (bs, n') ∧ n.Akin n' := by
  obtain ⟨e, j, s, rfl, ha, hd⟩ := h
  unfold Machine.read
  dsimp only [apart]
  cases m.proc.fds.get? fd with
  | none => exact Or.inl ⟨_, rfl, rfl⟩
  | some file =>
    dsimp only
    rcases m.world.read_apart file part e j with ⟨errno, hr, hr'⟩ | ⟨v, bs, hr, he, hj, ht, hr'⟩
    · rw [hr, hr']
      exact Or.inl ⟨errno, rfl, rfl⟩
    · rw [hr, hr']
      refine Or.inr ⟨bs, _, _, rfl, rfl, ?_⟩
      have hakin : Akin { m with world := v } { m with
          world := { v with errors := e, journal := j }, proc.sessionLast := s } := by
        refine ⟨e, j, s, rfl, ?_, by rw [hd, ← hj]⟩
        show Aside v.echoFrom v.errors _
        rw [he, ht]
        exact ha
      exact hakin.note rfl

theorem emit (h : m.Akin m') (chunks : List (Nat × Bytes)) :
    (m.emit chunks).1 = (m'.emit chunks).1 ∧ (m.emit chunks).2.Akin (m'.emit chunks).2 := by
  induction chunks generalizing m m' with
  | nil => exact ⟨rfl, h⟩
  | cons chunk chunks ih =>
    obtain ⟨fd, bs⟩ := chunk
    unfold Machine.emit
    rcases h.write false fd bs with ⟨errno, hw, hw'⟩ | ⟨n, n', hw, hw', hn⟩
    · rw [hw, hw']
      exact ⟨rfl, h⟩
    · rw [hw, hw']
      exact ih hn

end Machine.Akin

namespace Program

/-- A program ends alike, whatever the log says. -/
def RunsAlike (r r' : Nat × Machine) : Prop := r.1 = r'.1 ∧ r.2.Akin r'.2

variable {m m' : Machine}

theorem finish_akin (h : m.Akin m') (chunks : List (Nat × Bytes)) :
    RunsAlike (finish (m.emit chunks)) (finish (m'.emit chunks)) := by
  obtain ⟨hdone, hakin⟩ := h.emit chunks
  exact ⟨by rw [finish, finish, hdone], hakin⟩

theorem filter_akin (h : m.Akin m') (part render : Bytes → Bytes) :
    RunsAlike (filter m part render) (filter m' part render) := by
  unfold filter
  rcases h.read 0 part with ⟨errno, hr, hr'⟩ | ⟨bs, n, n', hr, hr', hn⟩
  · rw [hr, hr']
    exact ⟨rfl, h⟩
  · rw [hr, hr']
    exact finish_akin hn _

theorem run_akin (h : m.Akin m') (p : Program) (args : List Text) :
    RunsAlike (p.run args m) (p.run args m') := by
  have hproc : m'.proc.table = m.proc.table ∧ m'.proc.cwd = m.proc.cwd ∧
      m'.proc.fds = m.proc.fds := by
    obtain ⟨e, j, s, rfl, -⟩ := h
    exact ⟨rfl, rfl, rfl⟩
  obtain ⟨htable, hcwd, hfds⟩ := hproc
  cases p with
  | succeed => exact ⟨rfl, h⟩
  | fail => exact ⟨rfl, h⟩
  | echo => exact finish_akin h _
  | err => exact finish_akin h _
  | both => exact finish_akin h _
  | cat => exact filter_akin h _ _
  | count => exact filter_akin h _ _
  | head => exact filter_akin h _ _
  | status => exact ⟨rfl, h⟩
  | die => exact ⟨rfl, h⟩
  | raw => exact ⟨rfl, h⟩
  | env =>
    unfold run
    rw [htable]
    exact finish_akin h _
  | args => exact finish_akin h _
  | pwd =>
    unfold run
    rw [hcwd]
    exact finish_akin h _
  | fds =>
    unfold run
    rw [hfds]
    exact finish_akin h _

end Program

namespace Act.Agrees

theorem writeText (log : Bool) (fd : Nat) (t : Text) :
    Agrees (Act.writeText log fd t) (Act.writeText log fd t) :=
  InStep.writeText_of fun h => h.write log fd (encode t)

/-- A record that is logged on both sides. -/
theorem logRecord (r : Record) : Agrees (Act.logRecord r) (Act.logRecord r) := by
  refine InStep.logRecord_of rfl (note rfl) (fun h => ?_) (writeText true 2 _)
  obtain ⟨_, _, _, rfl, -⟩ := h
  rfl

theorem runImage (p : Program) (args : List Text) :
    Agrees (Act.runImage p args) (Act.runImage p args) := by
  intro m m' h
  obtain ⟨hraw, hakin⟩ := Program.run_akin h p args
  unfold Act.runImage
  rw [hraw]
  exact .ok hakin

theorem exec (file : Text) (argv : List Text) :
    Agrees (Act.exec file argv) (Act.exec file argv) := by
  refine .proc_bind fun p last => .bind (.refuse _) fun _ => ?_
  refine .bind (call fun m e j t s => ?_) fun found => ?_
  · dsimp only [Machine.apart]
    cases searchProgram m.world.files m.proc.cwd none (candidates p.table file) .noEntry <;> rfl
  split
  · exact .pure _
  · exact .bind (note rfl) fun _ => .bind (runImage _ _) fun _ => .bind (called _) fun _ => .pure _

end Act.Agrees

/-- Nothing that is done depends on the log. -/
instance : Act.Kin Machine.Akin where
  modify {f} h := by
    rintro m m' ⟨e, j, last, rfl, ha, hd⟩
    refine .ok ⟨e, j, last, ?_, ha, hd⟩
    show Machine.mk _ (f { m.proc with sessionLast := last }) = _
    rw [h]
    rfl
  getcwd := Agrees.getcwd
  chdir := Agrees.chdir
  pipe := Agrees.pipe
  dup := Agrees.dup
  close := Agrees.close
  openFile := Agrees.openFile
  wait := Agrees.wait
  nextNumber := Agrees.call fun _ _ _ _ _ => rfl
  called := Agrees.called
  exec := Agrees.exec
  writeText := Agrees.writeText
  logRecord := Agrees.logRecord

end LineShell
