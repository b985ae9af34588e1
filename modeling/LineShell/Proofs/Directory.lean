import LineShell.Proofs.Reports
import LineShell.Proofs.Shapes

/-!
# Changing the directory

A `cd` asks for the directory it is in, goes to another one, and asks twice for the directory it
has come to: once for `PWD`, and once for the log. Only the change itself is guarded. A change
that the system refuses changes nothing, and one that is made tells of both directories in the
table; but a question that fails ends the command with a failure of the system, and what was
changed before it stays changed. A target that holds a NUL is no failure of the system, so it is
not guarded either.

## The model

* `Entry.Domestic` is what a process tells of while it changes its directory. `World.scene` is the
  shape of a world without what it tells of calls.
* `Homebound` is the frame of what a change of directory may touch: nothing beyond the running
  process, and of the process its directory and its variables alone.
* `Sure` says that every question for the directory was answered.
* `Goes` lists how a change of directory ends, by the step that decides it, with the directory and
  the variables that it leaves in each case.

## What is proved

* A change of directory is homebound (`changeDirectory_homebound`) and ends in one of the listed
  ways (`changeDirectory_goes`). What a path names is told by the shape of the file tree
  (`Machine.Enters.of_shape`), so the way is told by the machine in which the command begins.
* It answers where every question is answered and the target holds no NUL (`Goes.answers`,
  `Goes.fails`).
* A command that changes the directory does this and tells of its beginning (`runLeaf_goes`).

The main result is about commands that learn their directory. Behind it stand the runs of those
that do not: one that fails and changes nothing, one that has left with one variable set, and one
that has done all that it was to do.
-/

namespace LineShell

open Act

/-! ### What a change of directory may touch -/

/-- What a process tells of while it changes its directory: that it begins, what it logs, and that
it asks for its directory or goes to another one. -/
def Entry.Domestic (pid : Nat) : Entry → Prop
  | .began p _ _ => p.pid = pid
  | .logged _ => True
  | .wrote p _ _ log => p = pid ∧ log = true
  | .called p (.getcwd _) => p = pid
  | .called p (.chdir _ _) => p = pid
  | _ => False

/-- The shape of a world without what it tells of calls. -/
def World.scene (w : World) : World := { w.shape with made := [], journal := [] }

/-- Nothing reached beyond the running process, and of the process only its directory and its
variables may have changed. -/
structure Homebound (m m' : Machine) : Prop where
  /-- The rest of the process is as it was. -/
  proc : m'.proc = { m.proc with cwd := m'.proc.cwd, table := m'.proc.table }
  /-- No process was made, ended or waited for, and no file was made or opened. -/
  scene : m'.world.scene = m.world.scene
  /-- Nothing was read or printed, and no other call was made. -/
  journal : Adds (Entry.Domestic m.proc.pid) m m'
  /-- Where the log is not written out, the world is as it was. -/
  unechoed : m.world.echoFrom = none →
    m'.world = { m.world with made := m'.world.made, journal := m'.world.journal }

namespace Homebound

variable {a b c m : Machine}

theorem pid (h : Homebound a b) : b.proc.pid = a.proc.pid := by rw [h.proc]

theorem echoFrom (h : Homebound a b) : b.world.echoFrom = a.world.echoFrom := by
  have hscene : b.world.scene.echoFrom = a.world.scene.echoFrom := by rw [h.scene]
  exact hscene

theorem nextPid (h : Homebound a b) : b.world.nextPid = a.world.nextPid := by
  have hscene : b.world.scene.nextPid = a.world.scene.nextPid := by rw [h.scene]
  exact hscene

theorem files (h : Homebound a b) : b.world.files.shape = a.world.files.shape := by
  have hscene : b.world.scene.files = a.world.scene.files := by rw [h.scene]
  exact hscene

theorem trans (hab : Homebound a b) (hbc : Homebound b c) : Homebound a c where
  proc := by rw [hbc.proc, hab.proc]
  scene := hbc.scene.trans hab.scene
  journal := Frame.trans hab.journal (hab.pid ▸ hbc.journal)
  unechoed he := by
    have hb := hab.unechoed he
    have hc := hbc.unechoed (hab.echoFrom.trans he)
    rw [hc, hb]

theorem note (m : Machine) {e : Entry} (h : e.Domestic m.proc.pid) : Homebound m (m.note e) :=
  ⟨rfl, rfl, .note h m, fun _ => rfl⟩

theorem counted (m : Machine) (c : CallName) : Homebound m (m.counted c) :=
  ⟨rfl, rfl, .of_eq rfl, fun _ => rfl⟩

/-- The directory or the variables change. -/
theorem changed (m : Machine) (cwd : Place) (table : Table) :
    Homebound m { m with proc := { m.proc with cwd := cwd, table := table } } :=
  ⟨rfl, rfl, .of_eq rfl, fun _ => rfl⟩

end Homebound

instance : Frame Homebound := ⟨fun m => .changed m m.proc.cwd m.proc.table, Homebound.trans⟩

/-- What is written for the log is no print, and nothing is written where the log is not echoed. -/
theorem Homebound.write {m n : Machine} {fd : Nat} {bs : Bytes} (he : m.world.echoFrom ≠ none)
    (h : m.write true fd bs = .ok n) : Homebound m n := by
  unfold Machine.write at h
  cases hfd : m.proc.fds.get? fd with
  | none => simp [hfd] at h
  | some file =>
    rw [hfd] at h
    dsimp only at h
    cases hw : m.world.write file bs with
    | error e => simp [hw, Except.map] at h
    | ok w =>
      rw [hw] at h
      obtain rfl := Except.ok.inj h
      have hshape : w.shape = m.world.shape := World.shape_of_write hw
      have hjournal : w.journal = m.world.journal := (World.write_spec hw).journal
      have hscene : w.scene = m.world.scene := by rw [World.scene, World.scene, hshape]
      refine ⟨rfl, hscene, ⟨[_], congrArg (· ++ [_]) hjournal, ?_⟩, fun hnone => absurd hnone he⟩
      simp [Entry.Domestic]

instance : Logs Homebound where
  log r m := by
    refine (Homebound.note m (e := .logged r) True.intro).trans ?_
    show Homebound (m.note (.logged r)) ((do
      if ((m.note (.logged r)).world.echoFrom.map fun k => decide (k ≤ r.level.number)).getD false then
        let _ ← attempt (writeText true 2 (recordLine r)) : Act Unit).after (m.note (.logged r)))
    generalize m.note (.logged r) = n
    cases he : n.world.echoFrom with
    | none => exact Frame.refl n
    | some k =>
      split
      · have hwrite : Homebound n ((writeText true 2 (recordLine r)).after n) := by
          unfold after writeText
          cases hw : n.write true 2 (encode (recordLine r)) with
          | error errno => exact Frame.refl n
          | ok n' => exact .write (by simp [he]) hw
        rw [← after_attempt] at hwrite
        exact Keeps.behind hwrite fun _ => .pure ()
      · exact Frame.refl n

namespace Act.Keeps

theorem getcwd_homebound : Keeps Homebound Act.getcwd := by
  intro m
  rcases getcwd_cases m with ⟨e, h⟩ | h
  · rw [after_of_error h]
    exact (Homebound.counted m _).trans (.note _ rfl)
  · rw [after_of_ok h]
    exact (Homebound.counted m _).trans (.note _ rfl)

theorem chdir_homebound (path : Text) : Keeps Homebound (Act.chdir path) := by
  intro m
  rcases chdir_eq path m with ⟨-, h⟩ | ⟨-, ⟨e, h⟩ | ⟨place, -, h⟩⟩
  · rw [after_of_error h]
    exact Frame.refl m
  · rw [after_of_error h]
    exact (Homebound.counted m _).trans (.note _ rfl)
  · rw [after_of_ok h]
    refine (Homebound.counted m .chdir).trans ?_
    exact (Homebound.changed (m.counted .chdir) place m.proc.table).trans (.note _ rfl)

theorem changeDirectory_homebound (c : Command) : Keeps Homebound (LineShell.changeDirectory c) := by
  refine fun m => Keeps.proc_bind ?_
  split
  · exact Keeps.bind (.debug _ _) (fun _ => .pure _) m
  · refine Keeps.bind getcwd_homebound (fun previous => ?_) m
    refine .bind (.attempt (chdir_homebound _)) fun r => ?_
    split
    · exact .bind (.debug _ _) fun _ => .pure _
    · exact .throw _
    · refine .bind (fun m => .changed m _ _) fun _ => .bind getcwd_homebound fun current => ?_
      refine .bind (fun m => .changed m _ _) fun _ => .bind getcwd_homebound fun here => ?_
      exact .bind (.debug _ _) fun _ => .pure _

end Act.Keeps

/-! ### How a change of directory ends -/

/-- A question for the directory failed. -/
def Entry.Lost (e : Entry) : Prop := e.failed? = some .getcwd

/-- Every question for the directory was answered. -/
def Sure : Machine → Machine → Prop := Adds fun e => ¬e.Lost

instance : Mild Sure where
  refl m := .of_eq rfl
  trans := Frame.trans (R := Adds fun e => ¬e.Lost)
  mute h := .of_eq h.journal
  utter {m e} he := by
    refine .note ?_ m
    cases e with
    | called pid event => exact he.elim
    | _ => exact nofun

theorem Proc.get?_arrived (p : Proc) (place : Place) :
    (p.arrived place).table.get? "OLDPWD".toList = some p.cwd.path ∧
      (p.arrived place).table.get? "PWD".toList = some place.path ∧
      ∀ name, name ≠ "OLDPWD".toList → name ≠ "PWD".toList →
        (p.arrived place).table.get? name = p.table.get? name := by
  unfold arrived left
  refine ⟨?_, Table.get?_set_self _ _ _, fun name hold hnew => ?_⟩
  · rw [Table.get?_set_of_ne _ _ (by decide), Table.get?_set_self]
  · rw [Table.get?_set_of_ne _ _ hnew, Table.get?_set_of_ne _ _ hold]

/-- How a change of directory ends, by the step that decides it. -/
inductive Goes (c : Command) (m : Machine) : EStateM.Result Failure Machine Status → Prop where
  /-- There is nowhere to go. -/
  | nowhere {n : Machine} (hd : c.destination? m.proc.table = none) (hproc : n.proc = m.proc)
      (hsure : Sure m n) : Goes c m (.ok .failure n)
  /-- The process does not learn where it is, and does not leave. -/
  | lost {n : Machine} {e : Errno} (hlost : ∃ d ∈ m.since n, d.Lost) (hproc : n.proc = m.proc) :
      Goes c m (.error (.system e none) n)
  /-- The target holds a NUL. -/
  | illegible {n : Machine} {target : Text} (hd : c.destination? m.proc.table = some target)
      (hnul : hasNul target = true) (hproc : n.proc = m.proc) (hsure : Sure m n) :
      Goes c m (.error .embeddedNull n)
  /-- The system refuses the change. -/
  | refused {n : Machine} {target : Text} (hd : c.destination? m.proc.table = some target)
      (hnul : hasNul target = false) (hrefused : ∃ d ∈ m.since n, d.failed? = some .chdir)
      (hproc : n.proc = m.proc) (hsure : Sure m n) : Goes c m (.ok .failure n)
  /-- The process has left, but does not learn where it has come to. -/
  | astray {n : Machine} {target : Text} {place : Place} {e : Errno}
      (hd : c.destination? m.proc.table = some target) (hnul : hasNul target = false)
      (henters : m.Enters target place) (hlost : ∃ d ∈ m.since n, d.Lost)
      (hproc : n.proc = m.proc.left place) : Goes c m (.error (.system e none) n)
  /-- The process has arrived, but cannot tell the log where. -/
  | untold {n : Machine} {target : Text} {place : Place} {e : Errno}
      (hd : c.destination? m.proc.table = some target) (hnul : hasNul target = false)
      (henters : m.Enters target place) (hlost : ∃ d ∈ m.since n, d.Lost)
      (hproc : n.proc = m.proc.arrived place) : Goes c m (.error (.system e none) n)
  /-- The process has arrived. -/
  | arrived {n : Machine} {target : Text} {place : Place}
      (hd : c.destination? m.proc.table = some target) (hnul : hasNul target = false)
      (henters : m.Enters target place) (hproc : n.proc = m.proc.arrived place)
      (hsure : Sure m n) : Goes c m (.ok .success n)

theorem debug_sure {logger message : Text} {m n : Machine} (h : debug logger message m = .ok () n) :
    Sure m n := (Keeps.debug (R := Sure) logger message).of_ok h

namespace Sure

variable {k m : Machine}

theorem located (h : Sure k m) : Sure k m.located :=
  Frame.trans h (Adds.called m .getcwd nofun)

theorem moved (h : Sure k m) (path : Text) (place : Place) : Sure k (m.moved path place) := by
  refine Frame.trans h ⟨[.called m.proc.pid (.chdir path (.ok ()))], rfl, ?_⟩
  simp [Entry.Lost, Entry.failed?, Event.failed?]

/-- The call that fails is the last one told of. -/
theorem mem_since (h : Sure k m) (c : CallName) (d : Entry) :
    d ∈ k.since ((m.counted c).note d) := by
  have hcounted : Sure k (m.counted c) := Frame.trans h (Adds.of_eq rfl)
  exact Machine.mem_since_note hcounted.recorded d

end Sure

/-- What a path names is told by the shape of the file tree. -/
theorem Machine.Enters.of_shape {m n : Machine} {path : Text} {place : Place}
    (h : n.Enters path place) (hcwd : n.proc.cwd = m.proc.cwd)
    (hfiles : n.world.files.shape = m.world.files.shape) : m.Enters path place := by
  obtain ⟨hnamed, mode, hnode, hpass⟩ := h
  have hdirectory : (m.world.files.node? place).map Node.shape = some (.directory mode) := by
    rw [← FileTree.node?_shape, ← hfiles, FileTree.node?_shape, hnode]
    rfl
  refine ⟨?_, mode, ?_, hpass⟩
  · rw [← FileTree.resolve_shape, ← hfiles, FileTree.resolve_shape, ← hcwd, hnamed]
  · obtain ⟨node, hnode, hshape⟩ := Option.map_eq_some_iff.1 hdirectory
    cases node with
    | directory mode' => rw [hnode, ← hshape, Node.shape_directory]
    | file mode' data program => exact nomatch hshape
    | null => exact nomatch hshape

/-- A change of directory ends in one of these ways, whatever was told before. -/
theorem changeDirectory_goes (c : Command) {m : Machine} {w : World} (hstart : Sure m ⟨w, m.proc⟩)
    (hfiles : w.files.shape = m.world.files.shape) : Goes c m (changeDirectory c ⟨w, m.proc⟩) := by
  have hlocated : Sure m (Machine.located ⟨w, m.proc⟩) := hstart.located
  have hleft (target : Text) (place : Place) : Sure m (Machine.left ⟨w, m.proc⟩ target place) :=
    hlocated.moved target place
  have harrived (target : Text) (place : Place) : Sure m (Machine.arrived ⟨w, m.proc⟩ target place) :=
    (hleft target place).located
  have hchanges := changeDirectory_changes c ⟨w, m.proc⟩
  generalize changeDirectory c ⟨w, m.proc⟩ = r at hchanges
  cases hchanges with
  | nowhere hd hlog =>
    have hproc := debug_idle hlog
    exact .nowhere hd hproc (Frame.trans hstart (debug_sure hlog))
  | lost e => exact .lost ⟨_, hstart.mem_since .getcwd _, rfl⟩ rfl
  | illegible hd hnul => exact .illegible hd hnul rfl hlocated
  | @refused target _ e _ hd hnul hlog =>
    have hrefused := hlocated.mem_since .chdir (.called m.proc.pid (.chdir target (.error e)))
    have hfound : ¬(Entry.called m.proc.pid (.chdir target (.error e))).Lost := by
      simp [Entry.Lost, Entry.failed?, Event.failed?]
    have hcalled : Sure m (Machine.unmoved _ target e) :=
      Frame.trans hlocated (Adds.called (Machine.located ⟨w, m.proc⟩) .chdir hfound)
    have hproc := debug_idle hlog
    have hsure := debug_sure hlog
    exact .refused hd hnul ⟨_, hsure.recorded.mem_first hrefused, rfl⟩ hproc
      (Frame.trans hcalled hsure)
  | astray hd hnul henters e =>
    exact .astray hd hnul (henters.of_shape rfl hfiles) ⟨_, (hleft _ _).mem_since .getcwd _, rfl⟩ rfl
  | untold hd hnul henters e =>
    exact .untold hd hnul (henters.of_shape rfl hfiles) ⟨_, (harrived _ _).mem_since .getcwd _, rfl⟩ rfl
  | arrived hd hnul henters hlog =>
    exact .arrived hd hnul (henters.of_shape rfl hfiles) (debug_idle hlog)
      (Frame.trans (harrived _ _).located (debug_sure hlog))

namespace Goes

variable {c : Command} {m n : Machine}

/-- Where a change of directory answers, every question was answered. -/
theorem answers {s : Status} (h : Goes c m (.ok s n)) :
    (∀ d ∈ m.since n, d.failed? ≠ some .getcwd) ∧
      ∀ target, c.destination? m.proc.table = some target → hasNul target = false := by
  cases h with
  | nowhere hd _ hsure =>
    refine ⟨fun d => hsure.of_mem_since, fun target h => ?_⟩
    simp [hd] at h
  | refused hd hnul _ _ hsure =>
    refine ⟨fun d => hsure.of_mem_since, fun target h => ?_⟩
    obtain rfl := Option.some.inj (hd.symm.trans h)
    exact hnul
  | arrived hd hnul _ _ hsure =>
    refine ⟨fun d => hsure.of_mem_since, fun target h => ?_⟩
    obtain rfl := Option.some.inj (hd.symm.trans h)
    exact hnul

/-- Where it fails, a question was not answered or the target holds a NUL. -/
theorem fails {e : Failure} (h : Goes c m (.error e n)) :
    (∃ d ∈ m.since n, d.failed? = some .getcwd) ∨
      ∃ target, c.destination? m.proc.table = some target ∧ hasNul target = true := by
  cases h with
  | lost hlost _ => exact Or.inl hlost
  | illegible hd hnul _ _ => exact Or.inr ⟨_, hd, hnul⟩
  | astray _ _ _ hlost _ => exact Or.inl hlost
  | untold _ _ _ hlost _ => exact Or.inl hlost

end Goes

/-! ### Commands that change the directory -/

section Leaves

variable {rules : Rules} {c : Command} {m : Machine}

theorem runLeaf_of_change (hk : rules.kind (c.verb.expand m.proc.table) = .change)
    (mark : Option Nat) (level : Int) :
    runLeaf rules mark c level m = changeDirectory c ((Tree.leaf mark c).told level m) := by
  rw [runLeaf_eq, Rules.perform, hk]

theorem told_homebound (mark : Option Nat) (c : Command) (level : Int) (m : Machine) :
    Homebound m ((Tree.leaf mark c).told level m) :=
  Tree.told_of (fun m _ _ => .note m rfl) _ level m

theorem told_sure (mark : Option Nat) (c : Command) (level : Int) (m : Machine) :
    Sure m ((Tree.leaf mark c).told level m) :=
  Tree.told_of (R := Sure) (fun m _ _ => Adds.note nofun m) _ level m

/-- How a command that changes the directory ends, and what it touches. -/
theorem runLeaf_goes (hk : rules.kind (c.verb.expand m.proc.table) = .change)
    (mark : Option Nat) (level : Int) :
    Homebound m ((runLeaf rules mark c level).after m) ∧
      Goes c m (runLeaf rules mark c level m) := by
  have hrun := runLeaf_of_change hk mark level
  have hhome := told_homebound mark c level m
  have hsure := told_sure mark c level m
  have hproc : ((Tree.leaf mark c).told level m).proc = m.proc :=
    (Tree.leaf mark c).told_idle level m
  constructor
  · rw [after_eq_of_eq hrun]
    exact hhome.trans (Keeps.changeDirectory_homebound c _)
  · rw [hrun]
    generalize (Tree.leaf mark c).told level m = k at hhome hsure hproc
    obtain ⟨w, p⟩ := k
    obtain rfl : p = m.proc := hproc
    exact changeDirectory_goes c hsure hhome.files

/-- **All or nothing, where the process learns its directory.** A command that changes the directory
answers exactly where every question for the directory is answered and the target holds no NUL.
Where it answers, it has failed, for want of a target or since the system refused the change, and
the process is as it was; or it has succeeded, and the process is in the directory that the target
names, `OLDPWD` is the directory before, `PWD` is the new one, and every other name is as it was.
Where it does not answer, the process may be left in the new directory, with a table that tells of
the old one alone or of both. In no case is anything forked, read or printed. -/
theorem runLeaf_change (hk : rules.kind (c.verb.expand m.proc.table) = .change)
    (mark : Option Nat) (level : Int) :
    Homebound m ((runLeaf rules mark c level).after m) ∧
    ((∃ s n, runLeaf rules mark c level m = .ok s n) ↔
      (∀ d ∈ m.since ((runLeaf rules mark c level).after m), d.failed? ≠ some .getcwd) ∧
        ∀ target, c.destination? m.proc.table = some target → hasNul target = false) ∧
    (∀ s n, runLeaf rules mark c level m = .ok s n →
      (s = .failure ∧ n.proc = m.proc ∧
        (c.destination? m.proc.table = none ∨ ∃ d ∈ m.since n, d.failed? = some .chdir)) ∨
      (s = .success ∧
        (∃ target, c.destination? m.proc.table = some target ∧ m.Enters target n.proc.cwd) ∧
        n.proc.table.get? "OLDPWD".toList = some m.proc.cwd.path ∧
        n.proc.table.get? "PWD".toList = some n.proc.cwd.path ∧
        ∀ name, name ≠ "OLDPWD".toList → name ≠ "PWD".toList →
          n.proc.table.get? name = m.proc.table.get? name)) ∧
    (∀ e n, runLeaf rules mark c level m = .error e n →
      n.proc = m.proc ∨ ∃ target place, c.destination? m.proc.table = some target ∧
        m.Enters target place ∧ (n.proc = m.proc.left place ∨ n.proc = m.proc.arrived place)) := by
  obtain ⟨hhome, hgoes⟩ := runLeaf_goes hk mark level
  refine ⟨hhome, ?_, ?_, ?_⟩
  · cases hrun : runLeaf rules mark c level m with
    | ok s n =>
      rw [hrun] at hgoes
      rw [after_of_ok hrun]
      exact ⟨fun _ => hgoes.answers, fun _ => ⟨s, n, rfl⟩⟩
    | error e n =>
      rw [hrun] at hgoes
      rw [after_of_error hrun]
      constructor
      · rintro ⟨s, n, h⟩
        exact nomatch h
      rintro ⟨hasked, hlegible⟩
      rcases hgoes.fails with ⟨d, hd, hlost⟩ | ⟨target, hd, hnul⟩
      · exact absurd hlost (hasked d hd)
      · exact absurd hnul (by simp [hlegible target hd])
  · intro s n hrun
    rw [hrun] at hgoes
    cases hgoes with
    | nowhere hd hproc _ => exact Or.inl ⟨rfl, hproc, Or.inl hd⟩
    | refused _ _ hrefused hproc _ => exact Or.inl ⟨rfl, hproc, Or.inr hrefused⟩
    | @arrived _ target place hd _ henters hproc _ =>
      have hcwd : n.proc.cwd = place := by rw [hproc]; rfl
      have htable := m.proc.get?_arrived place
      rw [← hproc, ← hcwd] at htable
      exact Or.inr ⟨rfl, ⟨target, hd, hcwd ▸ henters⟩, htable⟩
  · intro e n hrun
    rw [hrun] at hgoes
    cases hgoes with
    | lost _ hproc => exact Or.inl hproc
    | illegible _ _ hproc _ => exact Or.inl hproc
    | astray hd _ henters _ hproc => exact Or.inr ⟨_, _, hd, henters, Or.inl hproc⟩
    | untold hd _ henters _ hproc => exact Or.inr ⟨_, _, hd, henters, Or.inr hproc⟩

end Leaves

/-- The command `cd` with a target. -/
def changeTo (target : Text) : Command := ⟨[.lit "cd".toList], [[.lit target]], none, none, none⟩

/-- `cd /` in a new session leaves the directory that every session starts in. -/
theorem runLeaf_change_toRoot :
    let rules : Rules := ⟨true, []⟩
    let m := Machine.boot .standard FileTree.home [] [0, 1] [⟨.getcwd, 4, .noEntry⟩] []
    rules.kind ((changeTo ['/']).verb.expand m.proc.table) = .change ∧
      ∃ n, runLeaf rules none (changeTo ['/']) 0 m = .ok .success n ∧ Homebound m n ∧
        n.proc.cwd = [] ∧ n.proc.table.get? "OLDPWD".toList = some "/work".toList ∧
        n.proc.table.get? "PWD".toList = some ['/'] := by
  intro rules m
  have hk : rules.kind ((changeTo ['/']).verb.expand m.proc.table) = .change := by decide
  have hasked : ∀ d ∈ m.since ((runLeaf rules none (changeTo ['/']) 0).after m),
      d.failed? ≠ some .getcwd := by decide +kernel
  have hallowed : ∀ d ∈ m.since ((runLeaf rules none (changeTo ['/']) 0).after m),
      d.failed? ≠ some .chdir := by decide +kernel
  have hlegible : ∀ target, (changeTo ['/']).destination? m.proc.table = some target →
      hasNul target = false := by
    intro target h
    obtain rfl := Option.some.inj h
    decide
  obtain ⟨hhome, hanswers, hdone, -⟩ := runLeaf_change hk none 0
  obtain ⟨s, n, hrun⟩ := hanswers.2 ⟨hasked, hlegible⟩
  rw [after_of_ok hrun] at hhome hallowed
  rcases hdone s n hrun with ⟨-, -, hnone | ⟨d, hd, hrefused⟩⟩ |
    ⟨rfl, ⟨target, htarget, henters⟩, hold, hnew, -⟩
  · exact nomatch hnone
  · exact absurd hrefused (hallowed d hd)
  · obtain rfl := Option.some.inj htarget
    have hroot : m.world.files.resolve m.proc.cwd ['/'] = .ok [] := by decide +kernel
    have hcwd : n.proc.cwd = [] := Except.ok.inj (henters.named.symm.trans hroot)
    rw [hcwd] at hnew
    exact ⟨hk, n, hrun, hhome, hcwd, hold, hnew⟩

/-- What a run fails with, and the directory and the variables that it leaves. -/
def raised? : EStateM.Result Failure Machine Status → Option (Failure × Place × Table)
  | .ok _ _ => none
  | .error e n => some (e, n.proc.cwd, n.proc.table)

/-- `cd` does not always answer, nor is it all or nothing: where the first question fails, or the
target is a NUL, it fails and changes nothing; where the second question fails it has left, and
`OLDPWD` alone is set; and where the third one fails it has done all that it was to do. -/
theorem runLeaf_not_change :
    let run (target : Text) (faults : List Fault) :=
      runLeaf ⟨true, []⟩ none (changeTo target) 0
        (.boot .standard FileTree.home [] [] faults [])
    raised? (run ['/'] [⟨.getcwd, 1, .noEntry⟩])
      = some (.system .noEntry none, FileTree.home, []) ∧
    raised? (run ['\x00'] []) = some (.embeddedNull, FileTree.home, []) ∧
    raised? (run ['/'] [⟨.getcwd, 2, .noEntry⟩])
      = some (.system .noEntry none, [], [("OLDPWD".toList, "/work".toList)]) ∧
    raised? (run ['/'] [⟨.getcwd, 3, .noEntry⟩])
      = some (.system .noEntry none, [],
        [("OLDPWD".toList, "/work".toList), ("PWD".toList, ['/'])]) := by
  intro run
  refine ⟨?_, ?_, ?_, ?_⟩
  all_goals decide +kernel

end LineShell
