import LineShell.Proofs.Frames

/-!
# Actions in step

What an action does is often the same for two machines that differ in something that it pays no
heed to. Two actions are in step if they take machines that are related to machines that are related,
and answer, or fail, with the same. How machines are related is left open: that they differ in the
log alone, that they have one shape, or that more is known of them where an action begins than where
it ends. The walk through the launcher, the operators and the nodes is made here once, for all such
relations.

## The model

* `Both R` relates what two runs come to: both answer with one value or both fail with one failure,
  and `R` relates the machines that they leave.
* `InStep P Q` relates two actions whose runs from machines related by `P` are related by `Both Q`.
* `Stays P R` says of an action that what `P` knows where it begins it knows again where it answers.
* `Peers` says of a relation that the running processes of related machines differ in the number of
  their session at most.
* `Kin` says of such a relation that every call of the system, everything that is written and every
  record is in step with itself.
* `Hosts P R` says what a relation needs for children to be made in it: a child begins as its maker
  does, and its end is seen by its maker alone.

## What is proved

* What is built of actions in step is in step (`InStep.bind`, `InStep.attempt`, `InStep.forM`), and
  two records of one weight are logged in step where two texts are written so
  (`InStep.logRecord_of`).
* Under a relation that is `Kin`, all that the launcher does in the running process is in step
  (`InStep.await`, `InStep.changeDirectory`, `InStep.bindAll`, `InStep.runProgram`).
* Where children can be made, a child that is in step makes its maker be in step (`InStep.fork`,
  `InStep.spawn`, `InStep.spawnAll`), and so an external command is (`InStep.runExternal`).
* The operators are in step if their sides are (`InStep.serial`, `Both.piped`, `InStep.inParallel`),
  and if it makes no difference what the log says, pairs and leaves at any two depths are
  (`InStep.runPair`, `InStep.runLeaf`).

## What is left out

That the calls, the writes and the records are in step is proved for each relation where it is
defined, and so is what an action leaves of the descriptors, which a pipe changes for its children.
-/

namespace LineShell

namespace Act

variable {α β : Type} {R : Machine → Machine → Prop}

/-! ### Runs that come to the same -/

/-- The same answer, or the same failure, and machines that are related. -/
inductive Both (R : Machine → Machine → Prop) :
    EStateM.Result Failure Machine α → EStateM.Result Failure Machine α → Prop where
  /-- Both answer. -/
  | ok {x : α} {m m' : Machine} (h : R m m') : Both R (.ok x m) (.ok x m')
  /-- Both fail. -/
  | error {e : Failure} {m m' : Machine} (h : R m m') : Both R (.error e m) (.error e m')

namespace Both

variable {a b : Act α} {m m' : Machine}

theorem bind {f g : α → Act β} (h : Both R (a m) (b m'))
    (hf : ∀ x n n', a m = .ok x n → R n n' → Both R (f x n) (g x n')) :
    Both R ((a >>= f) m) ((b >>= g) m') := by
  rw [bind_eq, bind_eq]
  generalize ha : a m = r at h
  generalize b m' = r' at h
  cases h with
  | ok hn => exact hf _ _ _ ha hn
  | error hn => exact .error hn

theorem attempt (h : Both R (a m) (b m')) : Both R (Act.attempt a m) (Act.attempt b m') := by
  unfold Act.attempt
  generalize a m = r at h
  generalize b m' = r' at h
  cases h with
  | ok hn => exact .ok hn
  | error hn => exact .ok hn

/-- However the runs end, the machines that they leave are related. -/
theorem after (h : Both R (a m) (b m')) : R (a.after m) (b.after m') := by
  unfold Act.after
  generalize a m = r at h
  generalize b m' = r' at h
  cases h with
  | ok hn => exact hn
  | error hn => exact hn

/-- Where the first one answers, so does the second one. -/
theorem exists_right (h : Both R (a m) (b m')) {x : α} {n : Machine} (ha : a m = .ok x n) :
    ∃ n', b m' = .ok x n' ∧ R n n' := by
  rw [ha] at h
  generalize b m' = r at h
  cases h with
  | ok hn => exact ⟨_, rfl, hn⟩

/-- Where the second one answers, so does the first one. -/
theorem exists_left (h : Both R (a m) (b m')) {x : α} {n' : Machine} (hb : b m' = .ok x n') :
    ∃ n, a m = .ok x n ∧ R n n' := by
  rw [hb] at h
  generalize a m = r at h
  cases h with
  | ok hn => exact ⟨_, rfl, hn⟩

/-- Two runs that come to the same as a third one come to the same. -/
theorem through {r r' c : EStateM.Result Failure Machine α}
    (hR : ∀ {n n' k : Machine}, R n k → R n' k → R n n') (h : Both R r c) (h' : Both R r' c) :
    Both R r r' := by
  cases h with
  | ok hn => cases h' with | ok hn' => exact .ok (hR hn hn')
  | error hn => cases h' with | error hn' => exact .error (hR hn hn')

end Both

/-! ### Actions that come to the same -/

/-- Two actions that take machines which `P` relates to machines which `Q` relates, with one answer or
one failure. -/
def InStep (P Q : Machine → Machine → Prop) (a b : Act α) : Prop := ∀ m m', P m m' → Both Q (a m) (b m')

/-- Where an action answers, what is known of the machines in which it began is known of those that it
leaves, as far as these are related at all. -/
def Stays (P R : Machine → Machine → Prop) (a : Act α) : Prop :=
  ∀ ⦃m m' n n' : Machine⦄ ⦃x : α⦄, P m m' → a m = .ok x n → R n n' → P n n'

/-- A relation between machines whose running processes differ in the number of their session at
most. -/
class Peers (P : Machine → Machine → Prop) : Prop where
  /-- The running processes differ in the number of their session at most. -/
  proc {m m' : Machine} : P m m' → ∃ last, m'.proc = { m.proc with sessionLast := last }

theorem Stays.self (a : Act α) : Stays R R a := fun _ _ _ _ _ _ _ h => h

/-- The call by which a child gets its number. -/
def nextNumber : Act (Except Errno Nat) :=
  call .fork .fork fun m => .ok (m.world.nextPid, { m with world.nextPid := m.world.nextPid + 1 })

namespace InStep

variable {P : Machine → Machine → Prop}

theorem pure (x : α) : InStep R R (Pure.pure x : Act α) (Pure.pure x) := fun _ _ h => .ok h

theorem throw (e : Failure) : InStep R R (MonadExcept.throw e : Act α) (MonadExcept.throw e) :=
  fun _ _ h => .error h

theorem bind {a b : Act α} {f g : α → Act β} (h : InStep P R a b) (hf : ∀ x, InStep R R (f x) (g x)) :
    InStep P R (a >>= f) (b >>= g) :=
  fun m m' hm => (h m m' hm).bind fun x n n' _ hn => hf x n n' hn

/-- What is known where the first action begins is known where it answers. -/
theorem bind_stays {a b : Act α} {f g : α → Act β} (h : InStep P R a b) (hs : Stays P R a)
    (hf : ∀ x, InStep P R (f x) (g x)) : InStep P R (a >>= f) (b >>= g) :=
  fun m m' hm => (h m m' hm).bind fun x n n' ha hn => hf x n n' (hs hm ha hn)

theorem attempt {a b : Act α} (h : InStep P R a b) : InStep P R (Act.attempt a) (Act.attempt b) :=
  fun m m' hm => (h m m' hm).attempt

theorem refuse (e : Option Failure) : InStep R R (Act.refuse e) (Act.refuse e) := by
  cases e with
  | none => exact .pure ()
  | some e => exact .throw e

theorem refuseNul (t : Text) : InStep R R (Act.refuseNul t) (Act.refuseNul t) := .refuse _

theorem answer (path : Option Text) (x : Except Errno α) :
    InStep R R (Act.answer path x) (Act.answer path x) := by
  cases x with
  | ok x => exact .pure x
  | error e => exact .throw _

theorem ofExcept (x : Except Failure α) :
    InStep R R (MonadExcept.ofExcept x : Act α) (MonadExcept.ofExcept x) := by
  cases x with
  | ok x => exact .pure x
  | error e => exact .throw e

theorem failure {f : Failure → Act Unit} (h : ∀ e, InStep R R (f e) (f e)) (e : Option Failure) :
    InStep R R (e.forM f) (e.forM f) := by
  cases e with
  | none => exact .pure ()
  | some e => exact h e

theorem forM {f : β → Act PUnit} {xs : List β} (h : ∀ x, InStep R R (f x) (f x)) :
    InStep R R (xs.forM f) (xs.forM f) := by
  induction xs with
  | nil => exact .pure ()
  | cons x xs ih => exact .bind (h x) fun _ => ih

/-- What is done with the running process may look at the number of its session, if that makes no
difference. -/
theorem proc_bind [Peers P] {f g : Proc → Act β}
    (h : ∀ p last, InStep P R (f p) (g { p with sessionLast := last })) :
    InStep P R (Act.proc >>= f) (Act.proc >>= g) := by
  intro m m' hm
  obtain ⟨last, hproc⟩ := Peers.proc hm
  show Both R (f m.proc m) (g m'.proc m')
  rw [hproc]
  exact h m.proc last m m' hm

/-- An entry about the running process may show the number of its session, if the relation does not. -/
theorem proc_note_bind [Peers P] {e : Proc → Entry} {f g : Proc → Act β}
    (he : ∀ {m m'}, P m m' → P (m.note (e m.proc)) (m'.note (e m'.proc)))
    (h : ∀ p last, InStep P R (f p) (g { p with sessionLast := last })) :
    InStep P R (Act.proc >>= fun p => Act.note (e p) >>= fun _ => f p)
      (Act.proc >>= fun p => Act.note (e p) >>= fun _ => g p) := by
  intro m m' hm
  obtain ⟨last, hproc⟩ := Peers.proc hm
  have hrest := h m.proc last _ _ (he hm)
  rw [← hproc] at hrest
  exact hrest

/-- A text is written in step with another one if the files take both or neither. -/
theorem writeText_of {log : Bool} {fd : Nat} {t t' : Text}
    (h : ∀ {m m'}, R m m' →
      (∃ e, m.write log fd (encode t) = .error e ∧ m'.write log fd (encode t') = .error e) ∨
        ∃ n n', m.write log fd (encode t) = .ok n ∧ m'.write log fd (encode t') = .ok n' ∧ R n n') :
    InStep R R (Act.writeText log fd t) (Act.writeText log fd t') := by
  intro m m' hm
  unfold Act.writeText
  rcases h hm with ⟨e, hw, hw'⟩ | ⟨n, n', hw, hw', hn⟩
  · rw [hw, hw']
    exact .error hm
  · rw [hw, hw']
    exact .ok hn

/-- A record is logged in step with another one of its weight, if both are noted and written so. -/
theorem logRecord_of {r r' : Record} (hlevel : r.level = r'.level)
    (hnote : InStep R R (Act.note (.logged r)) (Act.note (.logged r')))
    (hfrom : ∀ {m m'}, R m m' → m.world.echoFrom = m'.world.echoFrom)
    (hwrite : InStep R R (Act.writeText true 2 (recordLine r)) (Act.writeText true 2 (recordLine r'))) :
    InStep R R (Act.logRecord r) (Act.logRecord r') := by
  refine .bind hnote fun _ => ?_
  intro m m' hm
  have hecho : InStep R R (do
      if (m.world.echoFrom.map fun n => decide (n ≤ r.level.number)).getD false then
        let _ ← Act.attempt (Act.writeText true 2 (recordLine r))) (do
      if (m'.world.echoFrom.map fun n => decide (n ≤ r'.level.number)).getD false then
        let _ ← Act.attempt (Act.writeText true 2 (recordLine r'))) := by
    rw [hfrom hm, hlevel]
    split
    · exact .bind (.attempt hwrite) fun _ => .pure ()
    · exact .pure ()
  exact hecho m m' hm

end InStep

/-! ### The launcher in step -/

/-- A relation between machines under which every call, every text that is written and every record is
in step with itself, and so is every change of the running process that does not look at the number of
the session. -/
class Kin (R : Machine → Machine → Prop) : Prop extends Peers R where
  /-- The running process is changed. -/
  modify {f : Proc → Proc} :
    (∀ p last, f { p with sessionLast := last } = { f p with sessionLast := last }) →
      InStep R R (Act.modifyProc f) (Act.modifyProc f)
  /-- The directory is asked for. -/
  getcwd : InStep R R Act.getcwd Act.getcwd
  /-- The directory is changed. -/
  chdir (path : Text) : InStep R R (Act.chdir path) (Act.chdir path)
  /-- A channel is made. -/
  pipe : InStep R R Act.pipe Act.pipe
  /-- A descriptor is duplicated. -/
  dup (source target : Nat) : InStep R R (Act.dup source target) (Act.dup source target)
  /-- A descriptor is closed. -/
  close (fd : Nat) : InStep R R (Act.close fd) (Act.close fd)
  /-- A file is opened. -/
  openFile (path : Text) (mode : OpenMode) :
    InStep R R (Act.openFile path mode) (Act.openFile path mode)
  /-- A child is waited for. -/
  wait (pid : Nat) : InStep R R (Act.wait pid) (Act.wait pid)
  /-- A child gets its number. -/
  nextNumber : InStep R R nextNumber nextNumber
  /-- A call is noted. -/
  called (e : Event) : InStep R R (Act.called e) (Act.called e)
  /-- A program takes the place of the running process. -/
  exec (file : Text) (argv : List Text) : InStep R R (Act.exec file argv) (Act.exec file argv)
  /-- A text is written. -/
  writeText (log : Bool) (fd : Nat) (t : Text) :
    InStep R R (Act.writeText log fd t) (Act.writeText log fd t)
  /-- A record is logged. -/
  logRecord (r : Record) : InStep R R (Act.logRecord r) (Act.logRecord r)

namespace InStep

variable [Kin R]

theorem tally (f : Stats → Stats) : InStep R R (Act.tally f) (Act.tally f) :=
  Kin.modify fun _ _ => rfl

theorem remember (s : Status) : InStep R R (LineShell.remember s) (LineShell.remember s) := by
  unfold LineShell.remember
  split
  · exact .bind (Kin.modify fun _ _ => rfl) fun _ => .pure _
  · exact .bind (.pure _) fun _ => .pure _

theorem report (message : Text) : InStep R R (Act.report message) (Act.report message) :=
  Kin.writeText false 2 _

theorem debug (logger message : Text) :
    InStep R R (Act.debug logger message) (Act.debug logger message) := Kin.logRecord _

theorem info (logger message : Text) : InStep R R (Act.info logger message) (Act.info logger message) :=
  Kin.logRecord _

theorem error (logger message : Text) (cause : Option Failure) :
    InStep R R (Act.error logger message cause) (Act.error logger message cause) := Kin.logRecord _

theorem closeAll (fds : List Nat) : InStep R R (LineShell.closeAll fds) (LineShell.closeAll fds) :=
  .forM Kin.close

theorem bindStream (fd standard : Nat) (spare : List Nat) :
    InStep R R (LineShell.bindStream fd standard spare) (LineShell.bindStream fd standard spare) :=
  .bind (Kin.dup _ _) fun _ => .closeAll _

theorem createChannel : InStep R R LineShell.createChannel LineShell.createChannel :=
  .bind Kin.pipe fun _ => .bind (.tally _) fun _ => .bind (.debug _ _) fun _ => .pure _

theorem await (pid : Nat) : InStep R R (LineShell.await pid) (LineShell.await pid) := by
  refine .bind (Kin.wait pid) fun raw => .bind (.tally _) fun _ => ?_
  dsimp only
  split
  · exact .bind (.debug _ _) fun _ => .pure _
  · exact .bind (.debug _ _) fun _ => .pure _
  · exact .bind (.pure _) fun _ => .pure _

theorem awaitAll (pids : List Nat) :
    InStep R R (LineShell.awaitAll pids) (LineShell.awaitAll pids) := by
  induction pids with
  | nil => exact .pure []
  | cons pid pids ih => exact .bind (.await pid) fun _ => .bind ih fun _ => .pure _

theorem awaitStages (pids : List Nat) :
    InStep R R (LineShell.awaitStages pids) (LineShell.awaitStages pids) := by
  unfold LineShell.awaitStages
  split
  · exact .pure _
  · refine .bind (.await _) fun status => .bind (.debug _ _) fun _ => ?_
    split
    · exact .pure _
    · exact .await _

theorem reportFork (logger what : Text) (failure : Failure) : InStep R R
    (LineShell.reportFork logger what failure) (LineShell.reportFork logger what failure) := by
  unfold LineShell.reportFork
  split
  · exact .bind (.error _ _ _) fun _ => .report _
  · exact .throw _

theorem changeDirectory (c : Command) :
    InStep R R (LineShell.changeDirectory c) (LineShell.changeDirectory c) := by
  refine .proc_bind fun p last => ?_
  dsimp only
  split
  · exact .bind (.debug _ _) fun _ => .pure _
  · refine .bind Kin.getcwd fun previous => .bind (.attempt (Kin.chdir _)) fun r => ?_
    split
    · exact .bind (.debug _ _) fun _ => .pure _
    · exact .throw _
    · refine .bind (Kin.modify fun _ _ => rfl) fun _ => .bind Kin.getcwd fun current => ?_
      refine .bind (Kin.modify fun _ _ => rfl) fun _ => .bind Kin.getcwd fun here => ?_
      exact .bind (.debug _ _) fun _ => .pure _

theorem closeOpened (opened : List Nat) :
    InStep R R (LineShell.closeOpened opened) (LineShell.closeOpened opened) := closeAll _

theorem bindAll (opened : List Nat) (bs : List Binding) :
    InStep R R (LineShell.bindAll opened bs) (LineShell.bindAll opened bs) := by
  induction bs generalizing opened with
  | nil => exact closeOpened opened
  | cons b bs ih =>
    refine .bind (.attempt (Kin.openFile _ _)) fun r => ?_
    cases r with
    | error e => exact .bind (closeOpened _) fun _ => .throw e
    | ok fd =>
      refine .bind (.attempt (.forM (Kin.dup fd))) fun r => ?_
      cases r with
      | error e => exact .bind (closeOpened _) fun _ => .throw e
      | ok _ => exact ih _

theorem applyRedirects (c : Command) :
    InStep R R (LineShell.applyRedirects c) (LineShell.applyRedirects c) :=
  .proc_bind fun _ _ => bindAll _ _

theorem runProgram (argv : List Text) :
    InStep R R (LineShell.runProgram argv) (LineShell.runProgram argv) := by
  refine .bind (.tally _) fun _ => ?_
  split
  · exact .bind (.report _) fun _ => .pure _
  · exact .bind (.report _) fun _ => .pure _
  · refine .bind (Kin.exec _ _) fun r => ?_
    split
    · exact .pure _
    · exact .bind (.report _) fun _ => .pure _
    · exact .bind (.report _) fun _ => .pure _
    · exact .bind (.report _) fun _ => .pure _
    · exact .bind (.report _) fun _ => .pure _

theorem runChild (c : Command) : InStep R R (LineShell.runChild c) (LineShell.runChild c) := by
  refine .bind (.attempt (.applyRedirects c)) fun r => ?_
  split
  · exact .proc_bind fun _ _ => .runProgram _
  · exact .bind (.report _) fun _ => .pure _
  · exact .throw _

end InStep

/-! ### Children in step -/

/-- What is known of machines in which children are made, where `R` relates the machines that they leave:
it is known of the child as of its maker. -/
class Hosts (P R : Machine → Machine → Prop) : Prop where
  /-- Such machines are related. -/
  related {m m' : Machine} : P m m' → R m m'
  /-- What leaves the descriptors alone and enters no program leads to such machines again. -/
  calm {α : Type} {a : Act α} : Keeps Calm a → Stays P R a
  /-- The child is the running process. -/
  born {m m' : Machine} (pid : Nat) : P m m' → P { m with proc.pid := pid } { m' with proc.pid := pid }
  /-- The child has ended, and its maker goes on. -/
  ended {m m' n n' : Machine} (pid raw : Nat) : P m m' → R n n' →
    R { m with world := { n.world with ended := n.world.ended ++ [(pid, raw)] } }
      { m' with world := { n'.world with ended := n'.world.ended ++ [(pid, raw)] } }

namespace InStep

variable {P : Machine → Machine → Prop}

theorem sideWork {a b : Act Status} (h : InStep P R a b) :
    InStep P R (LineShell.sideWork a) (LineShell.sideWork b) := .bind h fun _ => .pure _

variable [Hosts P R]

/-- What takes related machines to related machines does so with machines of which more is known. -/
theorem hosted {a b : Act α} (h : InStep R R a b) : InStep P R a b :=
  fun m m' hm => h m m' (Hosts.related hm)

/-- What is in step, leaves the descriptors alone and enters no program may stand in front. -/
theorem bind_calm {a b : Act α} {f g : α → Act β} (h : InStep R R a b) (hk : Keeps Calm a)
    (hf : ∀ x, InStep P R (f x) (g x)) : InStep P R (a >>= f) (b >>= g) :=
  .bind_stays h.hosted (Hosts.calm hk) hf

/-- What a child is in step with, its maker is. -/
theorem runAs {pid : Nat} {c c' : Act Nat} (h : InStep P R c c') :
    InStep P R (Act.runAs pid c) (Act.runAs pid c') := by
  intro m m' hm
  have hlife := h _ _ (Hosts.born R pid hm)
  unfold Act.runAs
  generalize c { m with proc.pid := pid } = r at hlife
  generalize c' { m' with proc.pid := pid } = r' at hlife
  cases hlife with
  | ok hn => exact .ok (Hosts.ended pid _ hm hn)
  | error hn => exact .ok (Hosts.ended pid _ hm hn)

variable [Kin R]

theorem fork {c c' : Act Nat} (h : InStep P R c c') : InStep P R (Act.fork c) (Act.fork c') := by
  refine .bind_calm Kin.nextNumber (.call fun m y m' h => ?_) fun r => ?_
  · obtain ⟨-, rfl⟩ := Prod.mk.inj (Except.ok.inj h)
    exact Kernel.world ⟨.of_eq rfl rfl rfl rfl, rfl⟩
  · exact .bind_calm (.answer _ r) (.answer _ r) fun pid => .bind (runAs h) fun _ => .pure pid

theorem childLife {work work' : Act ChildEnd} (h : InStep P R work work') :
    InStep P R (LineShell.childLife work) (LineShell.childLife work') := by
  refine .bind_calm (Kin.called _) (.called _) fun _ => .bind (.attempt h) fun r => ?_
  split
  · exact .pure _
  · exact .bind (Kin.called _) fun _ => .pure _
  · exact .proc_bind fun _ _ => .bind (.error _ _ _) fun _ => .bind (Kin.called _) fun _ => .pure _

theorem spawn {work work' : Act ChildEnd} (h : InStep P R work work') :
    InStep P R (LineShell.spawn work) (LineShell.spawn work') :=
  .bind (fork (childLife h)) fun _ => .bind (.tally _) fun _ => .bind (.debug _ _) fun _ => .pure _

/-- Two children, one after the other: the second one is made where the first one has ended. -/
theorem spawnAll {x y x' y' : Act ChildEnd} (hx : InStep P R x x')
    (hs : Stays P R (Act.attempt (LineShell.spawn x))) (hy : InStep P R y y') :
    InStep P R (LineShell.spawnAll [x, y]) (LineShell.spawnAll [x', y']) := by
  have hrest : InStep P R (LineShell.spawnAll [y]) (LineShell.spawnAll [y']) := by
    refine .bind (.attempt (.spawn hy)) fun r => ?_
    split
    · exact .pure _
    · exact .bind (.pure _) fun _ => .pure _
  refine .bind_stays (.attempt (.spawn hx)) hs fun r => ?_
  split
  · exact .hosted (.pure _)
  · exact .bind hrest fun _ => .pure _

theorem runExternal (c : Command) :
    InStep P R (LineShell.runExternal c) (LineShell.runExternal c) := by
  refine .bind (.attempt (.spawn (.hosted (.runChild c)))) fun r => ?_
  split
  · exact .await _
  · exact .bind (.error _ _ _) fun _ => .bind (.report _) fun _ => .pure _
  · exact .throw _

end InStep

/-! ### Operators in step -/

section Operators

variable [Kin R] {a b a' b' : Act Status}

/-- A pipe is in step if its children are, wherever its channel was made. -/
theorem Both.piped {m m' : Machine} (hm : R m m')
    (h : ∀ r w n n', LineShell.createChannel m = .ok (r, w) n → R n n' →
      Both R (LineShell.spawnAll [pipeSide a w 1 r w, pipeSide b r 0 r w] n)
        (LineShell.spawnAll [pipeSide a' w 1 r w, pipeSide b' r 0 r w] n')) :
    Both R (LineShell.piped a b m) (LineShell.piped a' b' m') := by
  refine (InStep.createChannel.attempt m m' hm).bind fun made n n' hmade hn => ?_
  rcases attempt_eq_ok hmade with ⟨⟨r, w⟩, rfl, hchannel⟩ | ⟨e, rfl, -⟩
  · refine (h r w n n' hchannel hn).bind fun (pids, failure) k k' _ hk => ?_
    have htail : InStep R R (do
        let told ← Act.attempt (failure.forM (reportFork Operator.pipe.logger "pipe stage".toList))
        LineShell.closeAll [r, w]
        let () ← MonadExcept.ofExcept told
        LineShell.awaitStages pids) _ :=
      .bind (.attempt (.failure (fun e => .reportFork _ _ e) failure)) fun _ =>
        .bind (.closeAll _) fun _ => .bind (.ofExcept _) fun _ => .awaitStages pids
    exact htail k k' hk
  · cases e with
    | system e path =>
      exact InStep.bind (.error _ _ _) (fun _ => .bind (.report _) fun _ => .pure _) n n' hn
    | _ => exact InStep.throw _ n n' hn

/-- A parallel pair is in step if its children are. -/
theorem InStep.inParallel {P : Machine → Machine → Prop}
    (h : InStep P R (LineShell.spawnAll [LineShell.sideWork a, LineShell.sideWork b])
      (LineShell.spawnAll [LineShell.sideWork a', LineShell.sideWork b'])) :
    InStep P R (LineShell.inParallel a b) (LineShell.inParallel a' b') := by
  refine .bind h fun (pids, failure) => ?_
  refine .bind (.failure (fun e => .reportFork _ _ e) failure) fun _ => ?_
  refine .bind (.awaitAll pids) fun statuses => .bind (.debug _ _) fun _ => ?_
  split
  · exact .pure _
  · exact .pure _

end Operators

namespace InStep

variable {P : Machine → Machine → Prop} [Hosts P R] {a b a' b' : Act Status} {op : Operator}

/-- A serial pair is its left side, and then what its operator says of the right one. What is passed
on where the right side is skipped may be passed on in another way. -/
theorem serial_of (hop : op.forks = false) {c d : Act Status} {skip : Int → Act Status}
    (ha : InStep P R a c) (hs : Stays P R a) (hb : InStep P R b d)
    (hskip : ∀ n, op.admits n = false → InStep P R (op.pass n) (skip n)) :
    InStep P R (LineShell.combine op a b) (c >>= fun status =>
      match status with
      | .terminate => return .terminate
      | .code n => if op.admits n then d else skip n) := by
  rw [combine_of_serial hop]
  refine .bind_stays ha hs fun status => ?_
  cases status with
  | terminate => exact .hosted (.pure _)
  | code n =>
    dsimp only
    split
    · exact hb
    · next h => exact hskip n (Bool.eq_false_iff.2 h)

variable [Kin R]

theorem serial (hop : op.forks = false) (ha : InStep P R a a') (hs : Stays P R a)
    (hb : InStep P R b b') : InStep P R (LineShell.combine op a b) (LineShell.combine op a' b') := by
  rw [combine_of_serial hop a' b']
  refine serial_of hop ha hs hb fun n h => ?_
  obtain ⟨_, _, hpass⟩ := Operator.pass_of_skip h
  rw [hpass]
  exact .hosted (.bind (.debug _ _) fun _ => .pure _)

theorem combine_of (ha : InStep P R a a') (hs : Stays P R a) (hb : InStep P R b b')
    (hpiped : InStep P R (LineShell.piped a b) (LineShell.piped a' b'))
    (hparallel : InStep P R (LineShell.inParallel a b) (LineShell.inParallel a' b')) (op : Operator) :
    InStep P R (LineShell.combine op a b) (LineShell.combine op a' b') := by
  cases op with
  | sequential => exact serial rfl ha hs hb
  | conditionalAnd => exact serial rfl ha hs hb
  | conditionalOr => exact serial rfl ha hs hb
  | pipe => exact hpiped
  | parallel => exact hparallel

/-! ### Nodes in step -/

section Depths

variable (hlog : ∀ logger message message' : Text,
  InStep P R (Act.debug logger message) (Act.debug logger message'))
include hlog

/-- Where it makes no difference what the log says, the depth of a pair makes none. -/
theorem runPair (rules : Rules) (shown : Text) (i j : Int)
    (h : InStep P R (LineShell.combine op a b) (LineShell.combine op a' b'))
    (hs : Stays P R (LineShell.combine op a b)) :
    InStep P R (rules.runPair op shown i a b) (rules.runPair op shown j a' b') := by
  have hdebug (logger message : Text) : Stays P R (Act.debug logger message) :=
    Hosts.calm (.debug _ _)
  refine .bind_calm (.refuse _) (.refuse _) fun _ => ?_
  refine .bind_stays (hlog _ _ _) (hdebug _ _) fun _ => .bind_stays h hs fun status => ?_
  exact .bind (hlog _ _ _) fun _ => .remember _

/-- Nor does that of a leaf, if it makes no difference which session began it. -/
theorem runLeaf [Peers P] (rules : Rules) (mark : Option Nat) (c : Command)
    (hbegan : ∀ {m m'}, P m m' → P (m.note (.began m.proc mark c)) (m'.note (.began m'.proc mark c)))
    (i j : Int) : InStep P R (LineShell.runLeaf rules mark c i) (LineShell.runLeaf rules mark c j) := by
  refine .proc_note_bind hbegan fun p last => ?_
  refine .bind_stays (hlog _ _ _) (Hosts.calm (.debug _ _)) fun _ => ?_
  dsimp only
  split
  · exact .hosted (.bind (Kin.modify fun _ _ => rfl) fun _ => .bind (.debug _ _) fun _ => .pure _)
  · exact .hosted (.changeDirectory c)
  · exact .hosted (.bind (.info _ _) fun _ => .pure _)
  · exact .runExternal c

end Depths

end InStep

end Act

end LineShell
