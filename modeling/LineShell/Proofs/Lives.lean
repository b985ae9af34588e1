import LineShell.Proofs.Children
import LineShell.Proofs.Redirects

/-!
# The lives of children

A child runs to its end before its maker goes on, so the maker's next state is told by what the
child's work came to. Here that is said once for every action that makes children, turns a process
into a program, or waits: which calls it makes, what it answers, and that all else it does is
plain.

## The model

* `Machine.since` is what the journal tells between two machines, and `Adds` says that it goes on
  with entries of one kind alone.
* `Changes` lists what a change of directory comes to, by the step that decides it: there is
  nowhere to go, the process cannot learn where it is, the system refuses, or the process arrives
  and may fail to learn where.
* `Fate` says how the work of a child ends that may enter one program: it exits, fails, or became
  the program, with everything before that as a relation says.
* `Lived` is the life of a process with some work to do, up to its raw wait status. `Birth` says
  that a child was made for some work and lived to its end; `Machine.born` and `Machine.outlived`
  are the machines in which it begins and in which its maker finds itself again.
* `Births` lists what two children made one after the other come to: none, the first one alone, or
  both.
* `finishPipe`, `finishParallel` and `judge` are what is left of an operator once its children are
  made.
* `Parental` gathers what a relation needs for every tree to keep it.

## What is proved

* `spawn_cases`, `wait_cases`, `await_cases`, `runExternal_cases`, `piped_cases` and
  `inParallel_cases` take each action apart by what its calls are answered with. Later modules
  argue by these cases and do not open the actions again.
* A child for a command binds its streams and becomes the program with the argument vector that
  its variables give, or nothing but plain things happen (`runChild_fate`).
* What leaves keep, and pairs of children keep if their sides do, every tree keeps (`execute_of`),
  and so a relation that is `Parental` is kept by every tree (`execute_parental`).

## What is left out

Which call fails is up to the plan of the machine. That a call gets through is said for one call
at a time (`call_of_unplanned`); what a whole run does where no call fails is the matter of other
modules.
-/

namespace LineShell

open Act

/-! ### Calls that succeed or fail -/

/-- The call that an event tells of, if it failed. -/
def Event.failed? : Event → Option CallName
  | .getcwd (.error _) => some .getcwd
  | .chdir _ (.error _) => some .chdir
  | .fork (.error _) => some .fork
  | .wait _ (.error _) => some .wait
  | .pipe (.error _) => some .pipe
  | .dup _ _ (.error _) => some .dup
  | .close _ (.error _) => some .close
  | .openFile _ _ (.error _) => some .openFile
  | .exec _ _ (.error _) => some .exec
  | _ => none

/-- The call that a journal entry tells of, if it failed. -/
def Entry.failed? : Entry → Option CallName
  | .called _ event => event.failed?
  | _ => none

/-- What the journal tells between two machines. -/
def Machine.since (m m' : Machine) : List Entry :=
  m'.world.journal.drop m.world.journal.length

theorem Machine.since_eq {m m' : Machine} {es : List Entry}
    (h : m'.world.journal = m.world.journal ++ es) : m.since m' = es := by
  rw [since, h, List.drop_left]

/-- The journal goes on with entries of a kind. -/
def Adds (P : Entry → Prop) (m m' : Machine) : Prop :=
  ∃ es, m'.world.journal = m.world.journal ++ es ∧ ∀ e ∈ es, P e

instance (P : Entry → Prop) : Frame (Adds P) where
  refl m := ⟨[], by simp, by simp⟩
  trans := by
    rintro a b c ⟨es, hes, hP⟩ ⟨fs, hfs, hP'⟩
    refine ⟨es ++ fs, by rw [hfs, hes, List.append_assoc], fun e he => ?_⟩
    rcases List.mem_append.1 he with he | he
    · exact hP e he
    · exact hP' e he

namespace Adds

variable {P : Entry → Prop} {m m' : Machine}

theorem of_eq (h : m'.world.journal = m.world.journal) : Adds P m m' := ⟨[], by simp [h], by simp⟩

theorem note {e : Entry} (h : P e) (m : Machine) : Adds P m (m.note e) := ⟨[e], rfl, by simpa⟩

/-- A call that is counted and told of. -/
theorem called (m : Machine) (c : CallName) {event : Event} (h : P (.called m.proc.pid event)) :
    Adds P m ((m.counted c).note (.called m.proc.pid event)) := ⟨[_], rfl, by simpa⟩

theorem of_mem_since (h : Adds P m m') {e : Entry} (he : e ∈ m.since m') : P e := by
  obtain ⟨es, hes, hP⟩ := h
  rw [Machine.since_eq hes] at he
  exact hP e he

end Adds

namespace Act

variable {α : Type}

/-- A call for which no failure is planned does its work. -/
theorem call_of_unplanned {c : CallName} {event : Except Errno α → Event}
    {work : Machine → Except Errno (α × Machine)} {m next : Machine} {x : α}
    (hp : m.world.planned? c = none) (h : work (m.counted c) = .ok (x, next)) :
    call c event work m = .ok (.ok x) (next.note (.called m.proc.pid (event (.ok x)))) := by
  unfold call
  rw [hp, h]

theorem answered_of_unplanned {path : Option Text} {c : CallName} {event : Except Errno α → Event}
    {work : Machine → Except Errno (α × Machine)} {m next : Machine} {x : α}
    (hp : m.world.planned? c = none) (h : work (m.counted c) = .ok (x, next)) :
    (do answer path (← call c event work)) m
      = .ok x (next.note (.called m.proc.pid (event (.ok x)))) := by
  rw [bind_eq, call_of_unplanned hp h]
  rfl

/-- A call for which no failure is planned fails as its work does. -/
theorem call_of_refused {c : CallName} {event : Except Errno α → Event}
    {work : Machine → Except Errno (α × Machine)} {m : Machine} {e : Errno}
    (hp : m.world.planned? c = none) (h : work (m.counted c) = .error e) :
    call c event work m
      = .ok (.error e) ((m.counted c).note (.called m.proc.pid (event (.error e)))) := by
  unfold call
  rw [hp, h]

end Act

/-- A call gets through if the plan names no failure for this one of its name. -/
theorem World.planned?_eq_none {w : World} {c : CallName}
    (h : ∀ f ∈ w.faults, f.call = c → f.nth ≠ w.made.count c + 1) : w.planned? c = none := by
  have hnone : (w.faults.find? fun f => f.call == c && f.nth == w.made.count c + 1) = none := by
    refine List.find?_eq_none.2 fun f hf => ?_
    by_cases hcall : f.call = c
    · simp [h f hf hcall]
    · simp [hcall]
  simp [planned?, hnone]

/-- The machine after its directory was asked for. -/
def Machine.located (m : Machine) : Machine :=
  (m.counted .getcwd).note (.called m.proc.pid (.getcwd (.ok m.proc.cwd)))

/-- The machine after its directory was asked for in vain. -/
def Machine.unlocated (m : Machine) (e : Errno) : Machine :=
  (m.counted .getcwd).note (.called m.proc.pid (.getcwd (.error e)))

theorem getcwd_cases (m : Machine) :
    (∃ e, getcwd m = .error (.system e none) (m.unlocated e)) ∨
      getcwd m = .ok m.proc.cwd m.located := by
  unfold getcwd
  rw [bind_eq]
  cases hp : m.world.planned? .getcwd with
  | some e =>
    simp only [call, hp]
    exact Or.inl ⟨e, rfl⟩
  | none =>
    simp only [call, hp]
    exact Or.inr rfl

/-- The machine after its directory was changed. -/
def Machine.moved (m : Machine) (path : Text) (place : Place) : Machine :=
  { m.counted .chdir with proc.cwd := place }.note (.called m.proc.pid (.chdir path (.ok ())))

/-- The machine after its directory could not be changed. -/
def Machine.unmoved (m : Machine) (path : Text) (e : Errno) : Machine :=
  (m.counted .chdir).note (.called m.proc.pid (.chdir path (.error e)))

/-- A path names a place, seen from the working directory, and a process may go there. -/
structure Machine.Enters (m : Machine) (path : Text) (place : Place) : Prop where
  /-- The path names the place. -/
  named : m.world.files.resolve m.proc.cwd path = .ok place
  /-- The place is a directory that may be walked through. -/
  passable : ∃ mode, m.world.files.node? place = some (.directory mode) ∧ mode.pass = true

/-- A change of directory refuses a NUL without a call; or the call fails; or the process goes to
the place that the path names. -/
theorem chdir_eq (path : Text) (m : Machine) :
    (hasNul path = true ∧ chdir path m = .error .embeddedNull m) ∨
    hasNul path = false ∧
      ((∃ e, chdir path m = .error (.system e (some path)) (m.unmoved path e)) ∨
      ∃ place, m.Enters path place ∧ chdir path m = .ok () (m.moved path place)) := by
  unfold chdir
  rw [bind_eq]
  unfold refuseNul
  cases hasNul path with
  | true => exact Or.inl ⟨rfl, rfl⟩
  | false =>
    refine Or.inr ⟨rfl, ?_⟩
    simp only [refuse, Bool.false_eq_true, if_false]
    show (∃ e, (call .chdir (.chdir path) _ >>= _) m = _) ∨
      ∃ place, _ ∧ (call .chdir (.chdir path) _ >>= _) m = _
    rw [bind_eq]
    rcases call_cases .chdir (.chdir path) _ m with ⟨e, hc⟩ | ⟨_, next, hw, hc⟩
    · rw [hc]
      exact Or.inl ⟨e, rfl⟩
    · rw [hc]
      split at hw
      · simp at hw
      next place hplace =>
      split at hw
      · next mode hnode =>
        split at hw
        · next hpass =>
          obtain ⟨-, rfl⟩ := Prod.mk.inj (Except.ok.inj hw)
          exact Or.inr ⟨place, ⟨hplace, mode, hnode, hpass⟩, rfl⟩
        · simp at hw
      · simp at hw

/-! ### Changes of directory -/

namespace Proc

/-- The process that has gone to a place: its variables tell where it was. -/
def left (p : Proc) (place : Place) : Proc :=
  { p with cwd := place, table := p.table.set "OLDPWD".toList p.cwd.path }

/-- The process that has gone to a place: its variables tell where it was and where it is. -/
def arrived (p : Proc) (place : Place) : Proc :=
  { p.left place with table := (p.left place).table.set "PWD".toList place.path }

end Proc

namespace Machine

/-- The machine whose process has asked for its directory and gone to another one. -/
def left (m : Machine) (path : Text) (place : Place) : Machine :=
  { m.located.moved path place with proc := m.proc.left place }

/-- The machine whose process has asked for the directory that it has gone to. -/
def arrived (m : Machine) (path : Text) (place : Place) : Machine :=
  { (m.left path place).located with proc := m.proc.arrived place }

end Machine

/-- What a change of directory comes to, by the step that decides it: three questions for the directory,
and the change between the first two of them. -/
inductive Changes (c : Command) (m : Machine) : EStateM.Result Failure Machine Status → Prop where
  /-- There is nowhere to go. -/
  | nowhere {message : Text} {n : Machine} (hd : c.destination? m.proc.table = none)
      (hlog : debug runner message m = .ok () n) : Changes c m (.ok .failure n)
  /-- The process does not learn where it is. -/
  | lost (e : Errno) : Changes c m (.error (.system e none) (m.unlocated e))
  /-- The target holds a NUL. -/
  | illegible {target : Text} (hd : c.destination? m.proc.table = some target)
      (hnul : hasNul target = true) : Changes c m (.error .embeddedNull m.located)
  /-- The system refuses the change. -/
  | refused {target message : Text} {e : Errno} {n : Machine}
      (hd : c.destination? m.proc.table = some target) (hnul : hasNul target = false)
      (hlog : debug runner message (m.located.unmoved target e) = .ok () n) :
      Changes c m (.ok .failure n)
  /-- The process has left, but does not learn where it has come to. -/
  | astray {target : Text} {place : Place} (hd : c.destination? m.proc.table = some target)
      (hnul : hasNul target = false) (henters : m.Enters target place) (e : Errno) :
      Changes c m (.error (.system e none) ((m.left target place).unlocated e))
  /-- The process has arrived, but does not learn what to tell the log. -/
  | untold {target : Text} {place : Place} (hd : c.destination? m.proc.table = some target)
      (hnul : hasNul target = false) (henters : m.Enters target place) (e : Errno) :
      Changes c m (.error (.system e none) ((m.arrived target place).unlocated e))
  /-- The process has arrived. -/
  | arrived {target message : Text} {place : Place} {n : Machine}
      (hd : c.destination? m.proc.table = some target) (hnul : hasNul target = false)
      (henters : m.Enters target place)
      (hlog : debug runner message (m.arrived target place).located = .ok () n) :
      Changes c m (.ok .success n)

/-- A change of directory comes to one of these. Its steps are followed one by one. -/
theorem changeDirectory_changes (c : Command) (m : Machine) : Changes c m (changeDirectory c m) := by
  unfold changeDirectory
  rw [bind_eq]
  dsimp only [proc]
  cases hd : c.destination? m.proc.table with
  | none =>
    obtain ⟨_, n, hlog⟩ := Answers.debug runner "cd: HOME not set".toList m
    dsimp only
    rw [bind_eq, hlog]
    exact .nowhere hd hlog
  | some target =>
    dsimp only
    rw [bind_eq]
    rcases getcwd_cases m with ⟨e, h⟩ | h
    · rw [h]
      exact .lost e
    rw [h]
    dsimp only
    rw [bind_eq, attempt]
    rcases chdir_eq target m.located with ⟨hnul, h⟩ | ⟨hnul, ⟨e, h⟩ | ⟨place, henters, h⟩⟩
    · rw [h]
      exact .illegible hd hnul
    · rw [h]
      dsimp only
      obtain ⟨_, n, hlog⟩ := Answers.debug runner _ _
      rw [bind_eq, hlog]
      exact .refused hd hnul hlog
    rw [h]
    dsimp only
    rw [bind_eq]
    -- from here on the process is in another directory, whatever comes
    have henters : m.Enters target place := ⟨henters.named, henters.passable⟩
    show Changes c m ((getcwd >>= _) (m.left target place))
    rw [bind_eq]
    rcases getcwd_cases (m.left target place) with ⟨e, h⟩ | h
    · rw [h]
      exact .astray hd hnul henters e
    rw [h]
    show Changes c m ((getcwd >>= _) (m.arrived target place))
    rw [bind_eq]
    rcases getcwd_cases (m.arrived target place) with ⟨e, h⟩ | h
    · rw [h]
      exact .untold hd hnul henters e
    rw [h]
    dsimp only
    obtain ⟨_, n, hlog⟩ := Answers.debug runner _ _
    rw [bind_eq, hlog]
    exact .arrived hd hnul henters hlog

/-! ### Programs -/

/-- The running process became a program, which ran to its end with a raw wait status. -/
def Became (argv : List Text) (raw : Nat) (m m' : Machine) : Prop :=
  ∃ n, Quiet (m.note (.entered m.proc argv)) n ∧ m' = n.note (.called n.proc.pid (.ended raw))

/-- How the work of a child ends that may enter one program: all that comes before the program,
or instead of it, is as `R` says. -/
inductive Fate (R : Machine → Machine → Prop) (argv : List Text) (m : Machine) :
    EStateM.Result Failure Machine ChildEnd → Prop where
  /-- The process is to exit with a code. -/
  | exit {code : Nat} {m' : Machine} (h : R m m') : Fate R argv m (.ok (.exit code) m')
  /-- The process has failed. -/
  | error {e : Failure} {m' : Machine} (h : R m m') : Fate R argv m (.error e m')
  /-- The process became a program. -/
  | program {raw : Nat} {n m' : Machine} (h : R m n) (hb : Became argv raw n m') :
      Fate R argv m (.ok (.program raw) m')

namespace Fate

variable {R S : Machine → Machine → Prop} {argv : List Text} {m m₁ : Machine}
  {r : EStateM.Result Failure Machine ChildEnd}

theorem mono (h : Fate R argv m r) (hRS : ∀ m m', R m m' → S m m') : Fate S argv m r := by
  cases h with
  | exit h => exact .exit (hRS _ _ h)
  | error h => exact .error (hRS _ _ h)
  | program h hb => exact .program (hRS _ _ h) hb

theorem trans [Frame R] (h : R m m₁) (hr : Fate R argv m₁ r) : Fate R argv m r := by
  cases hr with
  | exit h' => exact .exit (Frame.trans h h')
  | error h' => exact .error (Frame.trans h h')
  | program h' hb => exact .program (Frame.trans h h') hb

/-- Where an action can only end in a certain exit code, there is no program. -/
theorem of_keeps {a : Act Unit} (ha : Keeps R a) (code : Nat) (m : Machine) :
    Fate R argv m ((do a; return .exit code : Act ChildEnd) m) := by
  have h := ha m
  unfold after at h
  rw [bind_eq]
  cases hr : a m with
  | ok x m' =>
    rw [hr] at h
    exact .exit h
  | error e m' =>
    rw [hr] at h
    exact .error h

end Fate

/-- A process turns into a program, or nothing but plain things happen. -/
theorem exec_cases (file : Text) (argv : List Text) (m : Machine) :
    (∃ raw n m', exec file argv m = .ok (.ok raw) m' ∧ Quiet m n ∧ Became argv raw n m') ∨
    (∃ e m', exec file argv m = .ok (.error e) m' ∧ Quiet m m') ∨
    ∃ e m', exec file argv m = .error e m' ∧ Quiet m m' := by
  have hcounted : Quiet m (m.counted .exec) := Lenient.plain (.counted m .exec)
  have hnoted (n : Machine) (r) : Quiet n (n.note (.called m.proc.pid (execEvent file argv r))) :=
    Lenient.plain (.note n.world rfl)
  rw [exec_eq, bind_eq]
  cases imageFault? file argv m.proc.table with
  | some e => exact Or.inr (Or.inr ⟨e, m, rfl, Frame.refl m⟩)
  | none =>
    show _ ∨ _ ∨ _
    dsimp only [refuse, pure, EStateM.pure]
    rw [bind_eq]
    rcases call_cases .exec (execEvent file argv) (findProgram m.proc.table file) m with
      ⟨e, hc⟩ | ⟨⟨place, program⟩, next, hw, hc⟩
    · rw [hc]
      exact Or.inr (Or.inl ⟨e, _, rfl, Frame.trans hcounted (hnoted _ _)⟩)
    · rw [hc]
      obtain rfl := findProgram_eq_ok hw
      refine Or.inl ⟨_, _, _, rfl, Frame.trans hcounted (hnoted _ (.ok (place, program))), ?_⟩
      exact ⟨_, program.run_keeps _ _, rfl⟩

theorem runProgram_fate (argv : List Text) (m : Machine) :
    Fate Quiet argv m (runProgram argv m) := by
  let m₁ : Machine := { m with proc.stats.exec := m.proc.stats.exec + 1 }
  have hm₁ : Quiet m m₁ := Forgetful.same ⟨rfl, rfl, rfl, rfl⟩
  refine .trans hm₁ ?_
  match argv with
  | [] => exact .of_keeps (.report _) _ m₁
  | [] :: _ => exact .of_keeps (.report _) _ m₁
  | (c :: file) :: args =>
    show Fate _ _ _ ((exec _ _ >>= _) m₁)
    rw [bind_eq]
    rcases exec_cases (c :: file) ((c :: file) :: args) m₁ with
      ⟨raw, n, m', hr, hq, hb⟩ | ⟨e, m', hr, hq⟩ | ⟨e, m', hr, hq⟩
    · rw [hr]
      exact .program hq hb
    · rw [hr]
      refine .trans hq ?_
      cases e <;> exact .of_keeps (.report _) _ m'
    · rw [hr]
      exact .error hq

/-- A child for a command binds its streams, and becomes the program with the argument vector that
its variables give. -/
theorem runChild_fate (c : Command) (m : Machine) :
    Fate Rebound (c.argv m.proc.table) m (runChild c m) := by
  have hkeep := Keeps.attempt (Keeps.applyRedirects c) m
  unfold runChild
  rw [bind_eq]
  cases hr : attempt (applyRedirects c) m with
  | error e m₁ =>
    rw [after_of_error hr] at hkeep
    exact .error hkeep
  | ok r m₁ =>
    rw [after_of_ok hr] at hkeep
    refine .trans hkeep ?_
    rcases r with e | _
    · cases e with
      | system e path => exact .of_keeps (.report _) _ m₁
      | _ => exact .error (Frame.refl m₁)
    · have hfate := (runProgram_fate (c.argv m₁.proc.table) m₁).mono fun _ _ =>
        Forgetful.quiet (R := Rebound)
      rw [← hkeep.table]
      exact hfate

/-- A child for a command keeps what is kept by work on descriptors, and by a program's entry and
end. -/
theorem Act.Keeps.runChild_of {R : Machine → Machine → Prop} [Forgetful R]
    (hrebound : ∀ m m', Rebound m m' → R m m')
    (hentered : ∀ (m : Machine) argv, R m (m.note (.entered m.proc argv)))
    (hended : ∀ (m : Machine) raw, R m (m.note (.called m.proc.pid (.ended raw)))) (c : Command) :
    Keeps R (runChild c) := by
  intro m
  have hfate := (runChild_fate c m).mono hrebound
  unfold after
  generalize runChild c m = r at hfate
  cases hfate with
  | exit h => exact h
  | error h => exact h
  | program h hb =>
    obtain ⟨n', hq, rfl⟩ := hb
    exact Frame.trans h (Frame.trans (hentered _ _) (Frame.trans (Forgetful.quiet hq) (hended _ _)))

/-! ### Lives -/

/-- The machine in which a child begins its work: it is a copy of its maker under the next free
number. -/
def Machine.born (m : Machine) : Machine where
  world := { ((m.counted .fork).world.note (.called m.proc.pid (.fork (.ok m.world.nextPid)))).note
      (.called m.world.nextPid .restoreSignal) with nextPid := m.world.nextPid + 1 }
  proc := { m.proc with pid := m.world.nextPid }

/-- The machine as the maker of a child finds it: the world as the child left it, and the child
among those that ended. -/
def Machine.outlived (m : Machine) (w : World) (raw : Nat) : Machine :=
  { m with world := { w with ended := w.ended ++ [(m.world.nextPid, raw)] } }

/-- The life of a process with some work to do, up to its raw wait status and the machine that it
leaves. -/
inductive Lived (work : Act ChildEnd) (m : Machine) : Nat → Machine → Prop where
  /-- It became a program. -/
  | program {raw : Nat} {m' : Machine} (h : work m = .ok (.program raw) m') : Lived work m raw m'
  /-- It exited with a code. -/
  | exit {code : Nat} {m' : Machine} (h : work m = .ok (.exit code) m') :
      Lived work m (exitedRaw code) (m'.note (.called m'.proc.pid (.exited code)))
  /-- Its work failed, which is logged. -/
  | error {e : Failure} {n m' : Machine} (h : work m = .error e n) (hq : Quiet n m') :
      Lived work m (exitedRaw 1) (m'.note (.called m'.proc.pid (.exited 1)))

/-- Behind its work a process does nothing but log a failure and exit. -/
theorem Lived.after {R : Machine → Machine → Prop} [Forgetful R]
    (hexited : ∀ (m : Machine) code, R m (m.note (.called m.proc.pid (.exited code))))
    {work : Act ChildEnd} {m m' : Machine} {raw : Nat} (h : Lived work m raw m') :
    R (work.after m) m' := by
  cases h with
  | program h =>
    rw [after_of_ok h]
    exact Frame.refl m'
  | exit h =>
    rw [after_of_ok h]
    exact hexited _ _
  | error h hq =>
    rw [after_of_error h]
    exact Frame.trans (Forgetful.quiet hq) (hexited _ 1)

/-- A child was made for some work, and ended with a raw wait status. -/
def Birth (work : Act ChildEnd) (raw : Nat) (m m' : Machine) : Prop :=
  ∃ dead, Lived work m.born raw dead ∧ Quiet (m.outlived dead.world raw) m'

/-- The maker finds what the child told, behind the making of the child and before plain things. -/
theorem Machine.journal_of_outlived {m dead m' : Machine} {raw : Nat} {es : List Entry}
    (hes : dead.world.journal = m.born.world.journal ++ es)
    (hq : Quiet (m.outlived dead.world raw) m') :
    ∃ fs, m'.world.journal = m.world.journal ++ fs ∧ es ⊆ fs ∧ ∀ e ∈ fs,
      e = .called m.proc.pid (.fork (.ok m.world.nextPid)) ∨ e ∈ es ∨ e.isPlain = true := by
  obtain ⟨fs, hfs, hplain⟩ := hq.plain.journal
  let made : List Entry := [.called m.proc.pid (.fork (.ok m.world.nextPid)),
    .called m.world.nextPid .restoreSignal]
  have hborn : m.born.world.journal = m.world.journal ++ made := List.append_assoc ..
  refine ⟨made ++ (es ++ fs), ?_, ?_, fun e he => ?_⟩
  · rw [hfs, ← List.append_assoc, ← hborn, ← List.append_assoc, ← hes]
    rfl
  · exact fun e he => by simp [he]
  · rcases List.mem_append.1 he with he | he
    · simp only [made, List.mem_cons, List.not_mem_nil, or_false] at he
      rcases he with rfl | rfl
      · exact Or.inl rfl
      · exact Or.inr (Or.inr rfl)
    · rcases List.mem_append.1 he with he | he
      · exact Or.inr (Or.inl he)
      · exact Or.inr (Or.inr (hplain e he))

/-- The machine after a child could not be made. -/
def Machine.barren (m : Machine) (e : Errno) : Machine :=
  (m.counted .fork).note (.called m.proc.pid (.fork (.error e)))

theorem Machine.barren_quiet (m : Machine) (e : Errno) : Quiet m (m.barren e) :=
  Frame.trans (b := m.counted .fork) (Lenient.plain (.counted m .fork)) (Lenient.plain (.note _ rfl))

/-- Logging is quiet and never fails. -/
theorem logRecord_quiet (r : Record) (m : Machine) :
    ∃ m', logRecord r m = .ok () m' ∧ Quiet m m' := by
  obtain ⟨_, m', hlog⟩ := Answers.logRecord r m
  exact ⟨m', hlog, (Keeps.logRecord r).of_ok hlog⟩

theorem debug_quiet (logger message : Text) (m : Machine) :
    ∃ m', debug logger message m = .ok () m' ∧ Quiet m m' := logRecord_quiet _ m

theorem childLife_lived (work : Act ChildEnd) (m : Machine) :
    ∃ raw m', childLife work m = .ok raw m' ∧
      Lived work (m.note (.called m.proc.pid .restoreSignal)) raw m' := by
  let m₁ := m.note (.called m.proc.pid .restoreSignal)
  show ∃ raw m', (attempt work >>= _ : Act Nat) m₁ = .ok raw m' ∧ Lived work m₁ raw m'
  rw [bind_eq]
  unfold attempt
  cases hw : work m₁ with
  | ok x m₂ =>
    cases x with
    | program raw => exact ⟨raw, m₂, rfl, .program hw⟩
    | exit code => exact ⟨_, _, rfl, .exit hw⟩
  | error e m₂ =>
    let record : Record :=
      ⟨.error, launcher, "Unhandled error in child ".toList ++ natText m₂.proc.pid, some e⟩
    obtain ⟨m₃, hlog, hq⟩ := logRecord_quiet record m₂
    refine ⟨_, _, ?_, .error hw hq⟩
    show (logRecord record >>= _) m₂ = _
    rw [bind_eq, hlog]
    rfl

/-- The machine in which a child begins its life. -/
def Machine.forked (m : Machine) : Machine where
  world := { (m.counted .fork).world.note (.called m.proc.pid (.fork (.ok m.world.nextPid))) with
    nextPid := m.world.nextPid + 1 }
  proc := { m.proc with pid := m.world.nextPid }

/-- The raw wait status of a child, by what its life comes to. -/
def endOf : EStateM.Result Failure Machine Nat → Nat
  | .ok raw _ => raw
  | .error _ _ => exitedRaw 1

/-- A child for which no failure is planned is made, and runs to its end. -/
theorem fork_of_unplanned {m : Machine} (hp : m.world.planned? .fork = none) (child : Act Nat) :
    fork child m = .ok m.world.nextPid
      (m.outlived (child.after m.forked).world (endOf (child m.forked))) := by
  let next : Machine := { m.counted .fork with world.nextPid := m.world.nextPid + 1 }
  let made : Machine := next.note (.called m.proc.pid (.fork (.ok m.world.nextPid)))
  have hcall : call .fork .fork (fun m => .ok (m.world.nextPid,
      { m with world.nextPid := m.world.nextPid + 1 })) m = .ok (.ok m.world.nextPid) made :=
    call_of_unplanned hp rfl
  have hrun : runAs m.world.nextPid child made
      = .ok () (m.outlived (child.after m.forked).world (endOf (child m.forked))) := by
    show (match child m.forked with
      | .ok raw n => EStateM.Result.ok () (m.outlived n.world raw)
      | .error _ n => .ok () (m.outlived n.world (exitedRaw 1))) = _
    unfold after
    cases child m.forked <;> rfl
  unfold fork
  rw [bind_eq, hcall]
  show (runAs m.world.nextPid child >>= fun _ => pure m.world.nextPid) made = _
  rw [bind_eq, hrun]
  rfl

/-- Making a child is a failure of the call, whatever the child, or the child runs to its end. -/
theorem fork_eq (m : Machine) :
    (∃ e, ∀ child, fork child m = .error (.system e none) (m.barren e)) ∨
    ∀ child, fork child m = .ok m.world.nextPid
      (m.outlived (child.after m.forked).world (endOf (child m.forked))) := by
  cases hp : m.world.planned? .fork with
  | some e =>
    refine Or.inl ⟨e, fun child => ?_⟩
    unfold fork
    simp only [bind_eq, call, hp]
    rfl
  | none => exact Or.inr (fork_of_unplanned hp)

theorem fork_cases (work : Act ChildEnd) (m : Machine) :
    (∃ e, fork (childLife work) m = .error (.system e none) (m.barren e)) ∨
    ∃ raw dead, Lived work m.born raw dead ∧
      fork (childLife work) m = .ok m.world.nextPid (m.outlived dead.world raw) := by
  obtain ⟨raw, dead, hlife, hlived⟩ := childLife_lived work m.forked
  rcases fork_eq m with ⟨e, hf⟩ | hf
  · exact Or.inl ⟨e, hf _⟩
  · refine Or.inr ⟨raw, dead, hlived, ?_⟩
    rw [hf, after_of_ok hlife, hlife]
    rfl

/-- What a child does is told by its work in the machine in which it begins that. -/
theorem spawn_congr {work work' : Act ChildEnd} {m : Machine} (h : work m.born = work' m.born) :
    spawn work m = spawn work' m := by
  have hlife : childLife work m.forked = childLife work' m.forked :=
    bind_left_congr (m := m.born) (attempt_congr h)
  refine bind_left_congr ?_
  rcases fork_eq m with ⟨e, hf⟩ | hf
  · rw [hf, hf]
  · rw [hf, hf, after, after, hlife]

/-- Either no child can be made, or one is made and lives to its end. -/
theorem spawn_cases (work : Act ChildEnd) (m : Machine) :
    (∃ e, spawn work m = .error (.system e none) (m.barren e)) ∨
    ∃ raw m', spawn work m = .ok m.world.nextPid m' ∧ Birth work raw m m' := by
  rw [spawn_eq, bind_eq]
  rcases fork_cases work m with ⟨e, hf⟩ | ⟨raw, dead, hlived, hf⟩
  · rw [hf]
    exact Or.inl ⟨e, rfl⟩
  · rw [hf]
    obtain ⟨m', htold⟩ := exists_tellChild m.world.nextPid (m.outlived dead.world raw)
    exact Or.inr ⟨raw, m', htold, dead, hlived, (Keeps.tellChild _).of_ok htold⟩

/-- What two children, made one after the other, come to. -/
inductive Births (x y : Act ChildEnd) (m : Machine) :
    List Nat × Option Failure → Machine → Prop where
  /-- No child could be made. -/
  | none (e : Errno) : Births x y m ([], some (.system e none)) (m.barren e)
  /-- The second one could not be made. -/
  | one {raw : Nat} {m₁ : Machine} (hx : Birth x raw m m₁) (e : Errno)
      (hsx : spawn x m = .ok m.world.nextPid m₁) :
      Births x y m ([m.world.nextPid], some (.system e none)) (m₁.barren e)
  /-- Both were made. -/
  | two {rawx rawy : Nat} {m₁ m₂ : Machine} (hx : Birth x rawx m m₁) (hy : Birth y rawy m₁ m₂)
      (hsx : spawn x m = .ok m.world.nextPid m₁) (hsy : spawn y m₁ = .ok m₁.world.nextPid m₂) :
      Births x y m ([m.world.nextPid, m₁.world.nextPid], none) m₂

/-- The running process of a pair has its descriptors whatever its children do. -/
theorem Births.same {x y : Act ChildEnd} {m m' : Machine} {r : List Nat × Option Failure}
    (h : Births x y m r m') : m.proc.Same m'.proc := by
  have hbirth {z : Act ChildEnd} {raw : Nat} {k n : Machine} (hz : Birth z raw k n) :
      k.proc.Same n.proc := by
    obtain ⟨dead, -, hq⟩ := hz
    exact hq.same
  cases h with
  | none e => exact (m.barren_quiet e).same
  | one hx e => exact (hbirth hx).trans (Machine.barren_quiet _ e).same
  | two hx hy => exact (hbirth hx).trans (hbirth hy)

/-- Where the first child cannot be made the others are not tried. -/
theorem spawnAll_cons (work : Act ChildEnd) (works : List (Act ChildEnd)) (m : Machine) :
    spawnAll (work :: works) m = match spawn work m with
      | .ok pid m' => (spawnAll works >>= fun r => pure (pid :: r.1, r.2)) m'
      | .error e m' => .ok ([], some e) m' := by
  show (attempt (spawn work) >>= _) m = _
  rw [bind_eq]
  unfold attempt
  cases spawn work m <;> rfl

theorem spawnAll_births (x y : Act ChildEnd) (m : Machine) :
    ∃ r m', spawnAll [x, y] m = .ok r m' ∧ Births x y m r m' := by
  rw [spawnAll_cons]
  rcases spawn_cases x m with ⟨e, hs⟩ | ⟨rawx, m₁, hs, hx⟩
  · rw [hs]
    exact ⟨_, _, rfl, .none e⟩
  · rw [hs]
    show ∃ r m', (spawnAll [y] >>= fun r => pure (m.world.nextPid :: r.1, r.2)) m₁ = _ ∧ _
    rw [bind_eq, spawnAll_cons]
    rcases spawn_cases y m₁ with ⟨e, hs'⟩ | ⟨rawy, m₂, hs', hy⟩
    · rw [hs']
      exact ⟨_, _, rfl, .one hx e hs⟩
    · rw [hs']
      exact ⟨_, _, rfl, .two hx hy hs hs'⟩

/-! ### Waiting -/

/-- The machine after a child was waited for. -/
def Machine.reaped (m : Machine) (pid raw : Nat) : Machine :=
  { m.counted .wait with world.ended := m.world.ended.filter fun e => e.1 != pid }.note
    (.called m.proc.pid (.wait pid (.ok raw)))

/-- The machine after a child could not be waited for. -/
def Machine.unreaped (m : Machine) (pid : Nat) (e : Errno) : Machine :=
  (m.counted .wait).note (.called m.proc.pid (.wait pid (.error e)))

/-- A wait gives the raw wait status of the child, and fails only by the plan or where there is no
such child. -/
theorem wait_cases (pid : Nat) (m : Machine) :
    (∃ e, wait pid m = .error (.system e none) (m.unreaped pid e) ∧
      (m.world.planned? .wait = none → m.world.ended.find? (·.1 == pid) = none)) ∨
    ∃ raw, m.world.ended.find? (·.1 == pid) = some (pid, raw) ∧
      wait pid m = .ok raw (m.reaped pid raw) := by
  unfold wait
  rw [bind_eq]
  cases hp : m.world.planned? .wait with
  | some e =>
    refine Or.inl ⟨e, ?_, by simp⟩
    simp only [call, hp]
    rfl
  | none =>
    cases hf : m.world.ended.find? (·.1 == pid) with
    | none =>
      refine Or.inl ⟨.noChild, ?_, fun _ => rfl⟩
      have hf' : (m.counted .wait).world.ended.find? (·.1 == pid) = none := hf
      simp only [call, hp, hf']
      rfl
    | some e =>
      obtain ⟨p, raw⟩ := e
      obtain rfl : p = pid := by simpa using List.find?_some hf
      refine Or.inr ⟨raw, rfl, ?_⟩
      have hf' : (m.counted .wait).world.ended.find? (·.1 == p) = some (p, raw) := hf
      simp only [call, hp, hf']
      rfl

/-- Waiting for a child decodes its raw wait status. -/
theorem await_cases (pid : Nat) (m : Machine) :
    (∃ e, await pid m = .error (.system e none) (m.unreaped pid e) ∧
      (m.world.planned? .wait = none → m.world.ended.find? (·.1 == pid) = none)) ∨
    ∃ raw m', m.world.ended.find? (·.1 == pid) = some (pid, raw) ∧
      Quiet (m.reaped pid raw) m' ∧ await pid m = .ok (Ending.ofRaw raw).status m' := by
  rw [await_eq, bind_eq]
  rcases wait_cases pid m with ⟨e, hw, hnone⟩ | ⟨raw, hf, hw⟩
  · rw [hw]
    exact Or.inl ⟨e, rfl, hnone⟩
  · rw [hw]
    obtain ⟨m', htold⟩ := exists_tellEnd pid raw (m.reaped pid raw)
    exact Or.inr ⟨raw, m', hf, (Keeps.tellEnd pid raw).of_ok htold, htold⟩

/-! ### What is left once the children are made -/

/-- What is left of an external command that got no child. -/
def withoutChild (c : Command) (e : Errno) : Act Status := do
  error runner ("Cannot fork for ".toList ++ c.shown ++ ": ".toList
    ++ (Failure.system e none).message) none
  report ("fork: ".toList ++ e.reason)
  return .failure

/-- What is left of a pipe that got no channel. -/
def withoutPipe (e : Errno) : Act Status := do
  error Operator.pipe.logger ("Cannot create pipe: ".toList
    ++ (Failure.system e none).message) none
  report ("pipe: ".toList ++ e.reason)
  return .failure

/-- What is left of a pipe once its children are made. -/
def finishPipe (readFd writeFd : Nat) (pids : List Nat) (failure : Option Failure) : Act Status := do
  let told ← attempt (failure.forM (reportFork Operator.pipe.logger "pipe stage".toList))
  closeAll [readFd, writeFd]
  let () ← ofExcept told
  awaitStages pids

/-- What is left of a parallel pair once its children were waited for. -/
def judge (statuses : List Status) : Act Status := do
  debug Operator.parallel.logger ("Parallel branches finished with [".toList
    ++ joinWith [',', ' '] (statuses.map Status.shown) ++ "]".toList)
  if statuses.length = 2 && statuses.all (· == .success) then return .success
  else return .failure

/-- What is left of a parallel pair once its children are made. -/
def finishParallel (pids : List Nat) (failure : Option Failure) : Act Status := do
  failure.forM (reportFork Operator.parallel.logger "parallel branch".toList)
  judge (← awaitAll pids)

/-- An external command makes its child and waits for it. -/
theorem runExternal_cases (c : Command) (m : Machine) :
    (∃ e, runExternal c m = withoutChild c e (m.barren e)) ∨
    ∃ raw m₁, Birth (runChild c) raw m m₁ ∧ runExternal c m = await m.world.nextPid m₁ := by
  unfold runExternal
  rw [bind_eq]
  unfold attempt
  rcases spawn_cases (runChild c) m with ⟨e, hs⟩ | ⟨raw, m₁, hs, hb⟩
  · rw [hs]
    exact Or.inl ⟨e, rfl⟩
  · rw [hs]
    exact Or.inr ⟨raw, m₁, hb, rfl⟩

/-- The machine after a channel could not be made. -/
def Machine.unpiped (m : Machine) (e : Errno) : Machine :=
  (m.counted .pipe).note (.called m.proc.pid (.pipe (.error e)))

theorem Machine.unpiped_quiet (m : Machine) (e : Errno) : Quiet m (m.unpiped e) :=
  Frame.trans (b := m.counted .pipe) (Lenient.plain (.counted m .pipe)) (Lenient.plain (.note _ rfl))

theorem createChannel_cases (m : Machine) :
    (∃ e, createChannel m = .error (.system e none) (m.unpiped e)) ∨
    ∃ r w m', createChannel m = .ok (r, w) m' := by
  rw [createChannel_eq, bind_eq]
  unfold pipe
  rw [bind_eq]
  rcases call_cases .pipe .pipe _ m with ⟨e, hc⟩ | ⟨⟨r, w⟩, next, -, hc⟩
  · rw [hc]
    exact Or.inl ⟨e, rfl⟩
  · rw [hc]
    obtain ⟨m', htold⟩ :=
      exists_tellChannel (r, w) (next.note (.called m.proc.pid (.pipe (.ok (r, w)))))
    exact Or.inr ⟨r, w, m', htold⟩

/-- A pipe makes its channel and its children, and goes on from there. -/
theorem piped_cases (a b : Act Status) (m : Machine) :
    (∃ e, createChannel m = .error (.system e none) (m.unpiped e) ∧
      piped a b m = withoutPipe e (m.unpiped e)) ∨
    ∃ r w m₁ pids failure m₂, createChannel m = .ok (r, w) m₁ ∧
      Births (pipeSide a w 1 r w) (pipeSide b r 0 r w) m₁ (pids, failure) m₂ ∧
      piped a b m = finishPipe r w pids failure m₂ := by
  unfold piped
  rw [bind_eq]
  unfold attempt
  rcases createChannel_cases m with ⟨e, hc⟩ | ⟨r, w, m₁, hc⟩
  · rw [hc]
    exact Or.inl ⟨e, rfl, rfl⟩
  · rw [hc]
    obtain ⟨⟨pids, failure⟩, m₂, hs, hb⟩ :=
      spawnAll_births (pipeSide a w 1 r w) (pipeSide b r 0 r w) m₁
    refine Or.inr ⟨r, w, m₁, pids, failure, m₂, rfl, hb, ?_⟩
    show (spawnAll _ >>= _) m₁ = _
    rw [bind_eq, hs]
    rfl

/-- A parallel pair makes its children, and goes on from there. -/
theorem inParallel_cases (a b : Act Status) (m : Machine) :
    ∃ pids failure m₁, Births (sideWork a) (sideWork b) m (pids, failure) m₁ ∧
      inParallel a b m = finishParallel pids failure m₁ := by
  obtain ⟨⟨pids, failure⟩, m₁, hs, hb⟩ := spawnAll_births (sideWork a) (sideWork b) m
  refine ⟨pids, failure, m₁, hb, ?_⟩
  unfold inParallel
  rw [bind_eq, hs]
  rfl

namespace Act.Keeps

theorem judge {R : Machine → Machine → Prop} [Logs R] (statuses : List Status) :
    Keeps R (LineShell.judge statuses) := by
  refine .bind (.debug _ _) fun _ => ?_
  split
  · exact .pure _
  · exact .pure _

variable {R : Machine → Machine → Prop} [Heedless R]

theorem withoutChild (c : Command) (e : Errno) : Keeps R (LineShell.withoutChild c e) :=
  .bind (.error _ _ _) fun _ => .bind (.report _) fun _ => .pure _

theorem withoutPipe (e : Errno) : Keeps R (LineShell.withoutPipe e) :=
  .bind (.error _ _ _) fun _ => .bind (.report _) fun _ => .pure _

theorem finishPipe {r w : Nat} {pids : List Nat} (hclose : Keeps R (LineShell.closeAll [r, w]))
    (hawait : ∀ pid ∈ pids, Keeps R (LineShell.await pid)) (failure : Option Failure) :
    Keeps R (LineShell.finishPipe r w pids failure) := by
  refine .bind (.attempt (.failure (fun e => .reportFork _ _ e) failure)) fun told => ?_
  refine .bind hclose fun _ => .bind (.ofExcept told) fun _ => ?_
  match pids with
  | [] => exact .pure _
  | [left] => exact .bind (hawait left (by simp)) fun _ => .bind (.debug _ _) fun _ => .pure _
  | left :: right :: _ =>
    refine .bind (hawait left (by simp)) fun _ => .bind (.debug _ _) fun _ => ?_
    exact hawait right (by simp)

theorem finishParallel {pids : List Nat} (hawait : ∀ pid ∈ pids, Keeps R (LineShell.await pid))
    (failure : Option Failure) : Keeps R (LineShell.finishParallel pids failure) := by
  have hall : Keeps R (LineShell.awaitAll pids) := by
    induction pids with
    | nil => exact .pure []
    | cons pid pids ih =>
      obtain ⟨hpid, hpids⟩ := List.forall_mem_cons.1 hawait
      exact .bind hpid fun _ => .bind (ih hpids) fun _ => .pure _
  refine .bind (.failure (fun e => .reportFork _ _ e) failure) fun _ => ?_
  exact .bind hall fun statuses => .judge statuses

/-- A leaf is begun, and then sets a variable, changes the directory, or makes a child. -/
theorem runLeaf_of (hbegan : ∀ (m : Machine) mark c, R m (m.note (.began m.proc mark c)))
    (hset : ∀ name value,
      Keeps R (Act.modifyProc fun p => { p with table := p.table.set name value }))
    (hchange : ∀ c, Keeps R (LineShell.changeDirectory c))
    (hexternal : ∀ c, Keeps R (LineShell.runExternal c)) (rules : Rules) (mark : Option Nat)
    (c : Command) (level : Int) : Keeps R (runLeaf rules mark c level) := by
  unfold runLeaf
  refine fun m => proc_bind (note_bind (hbegan m mark c) (.bind (.debug _ _) fun _ => ?_))
  split
  · exact .bind (hset _ _) fun _ => .bind (.debug _ _) fun _ => .pure _
  · exact hchange c
  · exact .bind (.info _ _) fun _ => .pure _
  · exact hexternal c

/-- A serial operator runs its sides in the running process, so it keeps what they keep. -/
theorem serial {op : Operator} (hop : op.forks = false) {a b : Act Status} (ha : Keeps R a)
    (hb : Keeps R b) : Keeps R (combine op a b) := by
  rw [combine_of_serial hop]
  refine .bind ha fun status => ?_
  split
  · exact .pure _
  · split
    · exact hb
    · next hskip => exact .pass (Bool.eq_false_iff.2 hskip)

theorem combine_of {a b : Act Status} (ha : Keeps R a) (hb : Keeps R b)
    (hpiped : Keeps R (piped a b)) (hparallel : Keeps R (inParallel a b)) (op : Operator) :
    Keeps R (combine op a b) := by
  cases op with
  | sequential => exact serial rfl ha hb
  | conditionalAnd => exact serial rfl ha hb
  | conditionalOr => exact serial rfl ha hb
  | pipe => exact hpiped
  | parallel => exact hparallel

/-- What leaves keep, and pairs of children keep if their sides do, every tree keeps. -/
theorem execute_of {rules : Rules} (hleaf : ∀ mark c level, Keeps R (runLeaf rules mark c level))
    (hpiped : ∀ a b, Keeps R a → Keeps R b → Keeps R (piped a b))
    (hparallel : ∀ a b, Keeps R a → Keeps R b → Keeps R (inParallel a b)) (t : Tree) (level : Int) :
    Keeps R (execute rules t level) := by
  induction t generalizing level with
  | leaf mark c => exact .bind (hleaf mark c level) fun _ => .remember _
  | bare mark => exact .throw _
  | binary mark op l r ihl ihr =>
    have hl := ihl (level + 1)
    have hr := ihr (level + 1)
    have hpair : Keeps R (rules.runPair op (Tree.binary mark op l r).shown level
        (execute rules l (level + 1)) (execute rules r (level + 1))) := by
      refine .bind (.refuse _) fun _ => .bind (.debug _ _) fun _ => ?_
      refine .bind (.combine_of hl hr (hpiped _ _ hl hr) (hparallel _ _ hl hr) op) fun _ => ?_
      exact .bind (.debug _ _) fun _ => .remember _
    unfold execute
    split
    · exact .bind (.refuse _) fun _ => hpair
    · exact hpair

end Act.Keeps

/-! ### What parents keep -/

/-- A relation that is kept where a process works on its descriptors, waits for a child, or makes one
whose work keeps it. -/
class Parental (R : Machine → Machine → Prop) : Prop extends Act.Forgetful R where
  /-- Descriptors may change. -/
  rebound {m m' : Machine} : Rebound m m' → R m m'
  /-- A child that keeps it does not break it for its maker. -/
  birth {work : Act ChildEnd} {raw : Nat} {m m' : Machine} :
    Act.Keeps R work → Birth work raw m m' → R m m'
  /-- Waiting does not break it. -/
  await (pid : Nat) : Act.Keeps R (LineShell.await pid)

theorem Births.keeps {R : Machine → Machine → Prop} [Parental R] {x y : Act ChildEnd}
    {m m' : Machine} {r : List Nat × Option Failure} (h : Births x y m r m') (hx : Keeps R x)
    (hy : Keeps R y) : R m m' := by
  cases h with
  | none e => exact Forgetful.quiet (m.barren_quiet e)
  | one hbx e => exact Frame.trans (Parental.birth hx hbx) (Forgetful.quiet (Machine.barren_quiet _ e))
  | two hbx hby => exact Frame.trans (Parental.birth hx hbx) (Parental.birth hy hby)

namespace Act.Keeps

variable {R : Machine → Machine → Prop} [Parental R] {a b : Act Status}

theorem of_rebound {α : Type} {a : Act α} (h : Keeps Rebound a) : Keeps R a :=
  h.mono fun _ _ => Parental.rebound

theorem runExternal_parental {c : Command} (h : Keeps R (runChild c)) : Keeps R (runExternal c) := by
  intro m
  rcases runExternal_cases c m with ⟨e, hr⟩ | ⟨raw, m₁, hb, hr⟩
  · rw [after_eq_of_eq hr]
    exact Frame.trans (Forgetful.quiet (m.barren_quiet e)) (Keeps.withoutChild c e _)
  · rw [after_eq_of_eq hr]
    exact Frame.trans (Parental.birth h hb) (Parental.await _ m₁)

theorem piped_parental (ha : Keeps R a) (hb : Keeps R b) : Keeps R (piped a b) := by
  have hside {c : Act Status} (h : Keeps R c) (fd standard r w : Nat) :
      Keeps R (pipeSide c fd standard r w) :=
    .bind (.of_rebound (.bindStream _ _ _)) fun _ => .bind h fun _ => .pure _
  intro m
  rcases piped_cases a b m with ⟨e, -, hr⟩ | ⟨r, w, m₁, pids, failure, m₂, hc, hbirths, hr⟩
  · rw [after_eq_of_eq hr]
    exact Frame.trans (Forgetful.quiet (m.unpiped_quiet e)) (Keeps.withoutPipe e _)
  · rw [after_eq_of_eq hr]
    have h₁ : R m m₁ := Parental.rebound (Keeps.createChannel.of_ok hc)
    have h₂ := hbirths.keeps (hside ha _ _ _ _) (hside hb _ _ _ _)
    have h₃ : Keeps R (LineShell.finishPipe r w pids failure) :=
      .finishPipe (.of_rebound (.closeAll _)) (fun pid _ => Parental.await pid) failure
    exact Frame.trans h₁ (Frame.trans h₂ (h₃ m₂))

theorem inParallel_parental (ha : Keeps R a) (hb : Keeps R b) : Keeps R (inParallel a b) := by
  intro m
  obtain ⟨pids, failure, m₁, hbirths, hr⟩ := inParallel_cases a b m
  rw [after_eq_of_eq hr]
  have h₁ : R m m₁ := hbirths.keeps (.bind ha fun _ => .pure _) (.bind hb fun _ => .pure _)
  have h₂ : Keeps R (LineShell.finishParallel pids failure) :=
    .finishParallel (fun pid _ => Parental.await pid) failure
  exact Frame.trans h₁ (h₂ m₁)

/-- What leaves keep, every tree keeps. -/
theorem execute_parental {rules : Rules} (hleaf : ∀ mark c level, Keeps R (runLeaf rules mark c level))
    (t : Tree) (level : Int) : Keeps R (execute rules t level) :=
  .execute_of hleaf (fun _ _ => .piped_parental) (fun _ _ => .inParallel_parental) t level

end Act.Keeps

end LineShell
