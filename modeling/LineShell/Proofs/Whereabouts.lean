import LineShell.Proofs.Directory
import LineShell.Proofs.Exports

/-!
# Where a session is

The variables `PWD` and `OLDPWD` of a process tell where it is and where it was before it last
changed its directory. Between these changes neither the directory nor the two variables move: not
by a `cd` that fails or is skipped, nor by one that a child runs, nor by a line that ends in a
failure. All this rests on two things: that the process learns its directory whenever it asks for
it, and that it does not assign to the two variables itself.

## The model

* `departures` are the places that a process left when it changed its directory, as the journal
  tells. It is computed from the entries, of which those of other processes do not matter.
* `Undisturbed` is the condition on the entries: every question for a directory is answered, and
  the process assigns to neither variable.
* `Rooted` is the frame of stretches in which nobody begins a leaf or changes a directory.
* `Tells` says what the variables of a process tell after it has left some places, and `Led` that
  they tell so behind a stretch that nothing disturbs. Other processes that travel meanwhile were
  made in it.

## What is proved

* A leaf tells where its process is when it begins, so `departures` can be cut anywhere
  (`departures_append`), and where the process is at first does not matter (`Led.tells`).
* A change of directory leaves the process where it is, or takes it to another place with its
  variables set (`changeDirectory_travels`), and the journal tells which (`changeDirectory_led`).
* A child travels on its own (`Led.birth`). So every leaf and every tree is told of
  (`runLeaf_led`, `execute_led`), and lines are, whatever becomes of each
  (`Shell.afterLines_led`).

## What is left out

A process that does not learn where it has come to has moved without its variables, which is why
every question is taken to be answered. Nothing is said of what children tell; their variables go
with them.
-/

namespace LineShell

open Act

/-! ### What the journal tells of a directory -/

/-- The name that a verb assigns to. -/
def Kind.assigned? : Kind → Option Text
  | .assignment name _ => some name
  | _ => none

/-- The name that a process begins to assign to, as a journal entry tells. -/
def Entry.assigned? (rules : Rules) (pid : Nat) : Entry → Option Text
  | .began p _ c => if p.pid = pid then (rules.kind (c.verb.expand p.table)).assigned? else none
  | _ => none

/-- Every question for a directory is answered, and a process assigns neither to `PWD` nor to
`OLDPWD`. -/
def Undisturbed (rules : Rules) (pid : Nat) (es : List Entry) : Prop :=
  ∀ e ∈ es, e.failed? ≠ some .getcwd ∧ e.assigned? rules pid ≠ some "PWD".toList ∧
    e.assigned? rules pid ≠ some "OLDPWD".toList

instance (rules : Rules) (pid : Nat) (es : List Entry) : Decidable (Undisturbed rules pid es) :=
  inferInstanceAs (Decidable (∀ e ∈ es, _))

/-- The places that a process left when it changed its directory, oldest first, as the journal
tells; at first it is in a given place. A leaf begins with where its process is, and goes elsewhere
at most once. -/
def departures (pid : Nat) : Place → List Entry → List Place
  | _, [] => []
  | here, .began p _ _ :: es => departures pid (if p.pid = pid then p.cwd else here) es
  | here, .called p (.chdir _ (.ok _)) :: es =>
    if p = pid then here :: departures pid here es else departures pid here es
  | here, _ :: es => departures pid here es

/-- The process that, as a journal entry tells, began a leaf or changed its directory. -/
def Entry.traveller? : Entry → Option Nat
  | .began p _ _ => some p.pid
  | .called pid (.chdir _ (.ok _)) => some pid
  | _ => none

theorem Entry.traveller?_of_isPlain {e : Entry} (h : e.isPlain = true) : e.traveller? = none := by
  unfold traveller?
  split
  · cases h
  · cases h
  · rfl

/-- Nobody began a leaf or changed its directory. -/
def Rooted : Machine → Machine → Prop := Adds fun e => e.traveller? = none

instance : Frame Rooted := inferInstanceAs (Frame (Adds _))

section Departures

variable {pid : Nat} {here : Place} {e : Entry} {es : List Entry}

/-- What others tell of themselves does not matter. -/
theorem departures_cons_of_ne (h : e.traveller? ≠ some pid) (here : Place) (es : List Entry) :
    departures pid here (e :: es) = departures pid here es := by
  unfold Entry.traveller? at h
  split at h
  · next p _ _ =>
    have hp : ¬ p.pid = pid := fun hp => h (congrArg some hp)
    rw [departures, if_neg hp]
  · next p _ _ =>
    have hp : ¬ p = pid := fun hp => h (congrArg some hp)
    rw [departures, if_neg hp]
  · next hbegan hgone =>
    rw [departures]
    · exact hbegan
    · exact hgone

theorem departures_append_of_ne (h : ∀ e ∈ es, e.traveller? ≠ some pid) (here : Place)
    (fs : List Entry) : departures pid here (es ++ fs) = departures pid here fs := by
  induction es with
  | nil => rfl
  | cons e es ih =>
    obtain ⟨he, hes⟩ := List.forall_mem_cons.1 h
    rw [List.cons_append, departures_cons_of_ne he, ih hes]

theorem departures_eq_nil (h : ∀ e ∈ es, e.traveller? ≠ some pid) (here : Place) :
    departures pid here es = [] := by
  rw [← List.append_nil es, departures_append_of_ne h, departures]

/-- After some entries the process is in some place, which does not depend on what comes then. -/
theorem departures_append (pid : Nat) (here : Place) (es : List Entry) :
    ∃ now, ∀ fs, departures pid here (es ++ fs)
      = departures pid here es ++ departures pid now fs := by
  fun_induction departures pid here es with
  | case1 here => exact ⟨here, fun _ => rfl⟩
  | case2 here p mark c es ih => exact ih
  | case3 here _ _ es ih =>
    obtain ⟨now, hnow⟩ := ih
    refine ⟨now, fun fs => ?_⟩
    rw [List.cons_append, departures, if_pos rfl, hnow, List.cons_append]
  | case4 here p _ _ es hne ih =>
    obtain ⟨now, hnow⟩ := ih
    refine ⟨now, fun fs => ?_⟩
    rw [List.cons_append, departures, if_neg hne, hnow]
  | case5 here e es hbegan hgone ih =>
    obtain ⟨now, hnow⟩ := ih
    refine ⟨now, fun fs => ?_⟩
    rw [List.cons_append, departures, hnow]
    · exact hbegan
    · exact hgone

end Departures

/-! ### Variables that tell of the directory -/

/-- `PWD` tells where a process is. -/
def Proc.Homed (p : Proc) : Prop := p.table.get? "PWD".toList = some p.cwd.path

/-- What the variables of a process tell after it has left some places: `PWD` tells where it is,
and `OLDPWD` where it was last, or what it told before. Where none was left it has not moved. -/
structure Tells (p q : Proc) (left : List Place) : Prop where
  /-- `PWD` tells where it is. -/
  homed : q.Homed
  /-- `OLDPWD` tells where it was last. -/
  old : q.table.get? "OLDPWD".toList
    = (left.getLast?.map Place.path).or (p.table.get? "OLDPWD".toList)
  /-- It does not move without leaving. -/
  still : left = [] → q.cwd = p.cwd

namespace Tells

variable {p q r : Proc} {left left' : List Place}

/-- Neither the directory nor the variables that tell of it have changed. -/
theorem of_eq (h : p.Homed) (hcwd : q.cwd = p.cwd)
    (hpwd : q.table.get? "PWD".toList = p.table.get? "PWD".toList)
    (hold : q.table.get? "OLDPWD".toList = p.table.get? "OLDPWD".toList) : Tells p q [] where
  homed := by rw [Proc.Homed, hpwd, hcwd, h]
  old := hold
  still _ := hcwd

/-- The process has gone to a place. -/
theorem arrived (p : Proc) (place : Place) : Tells p (p.arrived place) [p.cwd] where
  homed := (p.get?_arrived place).2.1
  old := (p.get?_arrived place).1
  still h := by cases h

theorem trans (h : Tells p q left) (h' : Tells q r left') : Tells p r (left ++ left') where
  homed := h'.homed
  old := by
    rw [h'.old, h.old, List.getLast?_append]
    cases left'.getLast? <;> rfl
  still hnone := by
    obtain ⟨hleft, hleft'⟩ := List.append_eq_nil_iff.1 hnone
    rw [h'.still hleft', h.still hleft]

end Tells

/-! ### Runs -/

/-- What a stretch of a run means for the running process: as long as nothing disturbs it, its
variables tell of the places that it left. Others that travel in this time were made in it. -/
structure Led (rules : Rules) (m m' : Machine) : Prop where
  /-- The running process has its number. -/
  pid : m'.proc.pid = m.proc.pid
  /-- No number is used again. -/
  nextPid : m.world.nextPid ≤ m'.world.nextPid
  /-- What the journal tells. -/
  journal : ∃ es, m'.world.journal = m.world.journal ++ es ∧
    (∀ e ∈ es, ∀ pid, e.traveller? = some pid → pid = m.proc.pid ∨ m.world.nextPid ≤ pid) ∧
    (m.proc.pid < m.world.nextPid → Undisturbed rules m.proc.pid es → m.proc.Homed →
      ∃ left, (∀ here, departures m.proc.pid here es = left) ∧ Tells m.proc m'.proc left)

namespace Led

variable {rules : Rules} {m m₁ m' : Machine} {es : List Entry}

theorem trans (h : Led rules m m₁) (h' : Led rules m₁ m') : Led rules m m' := by
  obtain ⟨es, hes, htravel, htold⟩ := h.journal
  obtain ⟨fs, hfs, htravel', htold'⟩ := h'.journal
  refine ⟨h'.pid.trans h.pid, h.nextPid.trans h'.nextPid, es ++ fs, ?_, ?_, ?_⟩
  · rw [hfs, hes, List.append_assoc]
  · intro e he pid hpid
    rcases List.mem_append.1 he with he | he
    · exact htravel e he pid hpid
    · rcases htravel' e he pid hpid with rfl | hle
      · exact Or.inl h.pid
      · exact Or.inr (h.nextPid.trans hle)
  · intro hlt hfree hhomed
    rw [h.pid] at htold'
    obtain ⟨hfree, hfree'⟩ := List.forall_mem_append.1 hfree
    obtain ⟨left, hleft, htells⟩ := htold hlt hfree hhomed
    obtain ⟨left', hleft', htells'⟩ := htold' (hlt.trans_le h.nextPid) hfree' htells.homed
    refine ⟨left ++ left', fun here => ?_, htells.trans htells'⟩
    obtain ⟨now, hnow⟩ := departures_append m.proc.pid here es
    rw [hnow, hleft, hleft']

/-- Only others travel, and the process stays as it is. -/
theorem of_aside (hpid : m'.proc.pid = m.proc.pid) (hnext : m.world.nextPid ≤ m'.world.nextPid)
    (hes : m'.world.journal = m.world.journal ++ es)
    (haside : ∀ e ∈ es, ∀ pid, e.traveller? = some pid → m.world.nextPid ≤ pid)
    (hcwd : m'.proc.cwd = m.proc.cwd) (htable : m'.proc.table = m.proc.table) : Led rules m m' := by
  refine ⟨hpid, hnext, es, hes, fun e he pid h => Or.inr (haside e he pid h), ?_⟩
  intro hlt _ hhomed
  have hothers : ∀ e ∈ es, e.traveller? ≠ some m.proc.pid :=
    fun e he h => absurd (haside e he _ h) (Nat.not_le.2 hlt)
  exact ⟨[], departures_eq_nil hothers, .of_eq hhomed hcwd (by rw [htable]) (by rw [htable])⟩

/-- Nobody travels, and the process stays as it is. -/
theorem of_rooted (h : Rooted m m') (hpid : m'.proc.pid = m.proc.pid)
    (hnext : m'.world.nextPid = m.world.nextPid) (hcwd : m'.proc.cwd = m.proc.cwd)
    (htable : m'.proc.table = m.proc.table) : Led rules m m' := by
  obtain ⟨es, hes, hnone⟩ := h
  refine .of_aside hpid hnext.ge hes (fun e he pid hpid => ?_) hcwd htable
  simp [hnone e he] at hpid

theorem refl (m : Machine) : Led rules m m := .of_rooted (.of_eq rfl) rfl rfl rfl rfl

theorem note (m : Machine) {e : Entry} (h : e.traveller? = none) : Led rules m (m.note e) :=
  .of_rooted (.note h m) rfl rfl rfl rfl

theorem recorded (h : Led rules m m') : Recorded m m' := by
  obtain ⟨es, hes, -⟩ := h.journal
  exact ⟨es, hes.symm⟩

/-- Where the process is at first does not matter, for every leaf tells where it begins. -/
theorem tells (h : Led rules m m') (hlt : m.proc.pid < m.world.nextPid) (hhomed : m.proc.Homed)
    (hfree : Undisturbed rules m.proc.pid (m.since m')) (here : Place) :
    Tells m.proc m'.proc (departures m.proc.pid here (m.since m')) := by
  obtain ⟨es, hes, -, htold⟩ := h.journal
  rw [Machine.since_eq hes] at hfree ⊢
  obtain ⟨left, hleft, htells⟩ := htold hlt hfree hhomed
  rw [hleft]
  exact htells

end Led

theorem World.Plain.rooted {m m' : Machine} (h : m.world.Plain m'.world) : Rooted m m' := by
  obtain ⟨es, hes, hplain⟩ := h.journal
  exact ⟨es, hes, fun e he => Entry.traveller?_of_isPlain (hplain e he)⟩

theorem Rebound.led {rules : Rules} {m m' : Machine} (h : Rebound m m') : Led rules m m' :=
  .of_rooted h.plain.rooted h.pid h.plain.nextPid h.cwd h.table

instance (rules : Rules) : Frame (Led rules) := ⟨.refl, .trans⟩

instance (rules : Rules) : Lenient (Led rules) := ⟨fun h => .of_rooted h.rooted rfl h.nextPid rfl rfl⟩

instance (rules : Rules) : Forgetful (Led rules) :=
  ⟨fun h => .of_rooted (.of_eq rfl) h.pid rfl h.cwd h.table⟩

/-- A child travels on its own. -/
theorem Led.birth {rules : Rules} {work : Act ChildEnd} {raw : Nat} {m m' : Machine}
    (hwork : Keeps (Led rules) work) (h : Birth work raw m m') : Led rules m m' := by
  obtain ⟨dead, hlived, hq⟩ := h
  have hlife : Led rules m.born dead :=
    (hwork m.born).trans (hlived.after fun n _ => .note n rfl)
  obtain ⟨es, hes, htravel, -⟩ := hlife.journal
  obtain ⟨fs, hfs, -, htold⟩ := Machine.journal_of_outlived hes hq
  have hnext : m.world.nextPid < m'.world.nextPid := hq.plain.nextPid ▸ hlife.nextPid
  refine .of_aside hq.same.pid hnext.le hfs (fun e he pid hpid => ?_) hq.same.cwd hq.same.table
  rcases htold e he with rfl | he | hplain
  · cases hpid
  · rcases htravel e he pid hpid with rfl | hle
    · exact Nat.le_refl _
    · exact Nat.le_of_succ_le hle
  · simp [Entry.traveller?_of_isPlain hplain] at hpid

instance (rules : Rules) : Parental (Led rules) where
  rebound := Rebound.led
  birth := Led.birth
  await _ := .await_of (.wait_of (fun m _ => .note m rfl) fun _ _ =>
    .of_rooted (.of_eq rfl) rfl rfl rfl rfl)

theorem runExternal_led (rules : Rules) (c : Command) : Keeps (Led rules) (runExternal c) := by
  refine .runExternal_parental ?_
  exact Keeps.runChild_of (fun _ _ => Rebound.led) (fun m argv => .note m rfl)
    (fun m raw => .note m rfl) c

/-! ### Leaves -/

section Leaves

variable {rules : Rules} {mark : Option Nat} {c : Command} {m n : Machine}

/-- A leaf is told of with the process that it finds, and after that nobody else travels. -/
theorem Led.of_leaf {es : List Entry} (hpid : n.proc.pid = m.proc.pid)
    (hnext : n.world.nextPid = m.world.nextPid)
    (hes : n.world.journal = m.world.journal ++ .began m.proc mark c :: es)
    (hown : ∀ e ∈ es, ∀ pid, e.traveller? = some pid → pid = m.proc.pid)
    (htells : Undisturbed rules m.proc.pid (.began m.proc mark c :: es) → m.proc.Homed →
      Tells m.proc n.proc (departures m.proc.pid m.proc.cwd es)) : Led rules m n := by
  refine ⟨hpid, hnext.ge, _, hes, fun e he pid htravel => ?_, fun _ hfree hhomed => ?_⟩
  · rcases List.mem_cons.1 he with rfl | he
    · exact Or.inl (Option.some.inj htravel).symm
    · exact Or.inl (hown e he pid htravel)
  · refine ⟨_, fun here => ?_, htells hfree hhomed⟩
    rw [departures, if_pos rfl]

theorem Led.began (m : Machine) (mark : Option Nat) (c : Command) :
    Led rules m (m.note (.began m.proc mark c)) :=
  .of_leaf rfl rfl rfl (by simp) fun _ hhomed => .of_eq hhomed rfl rfl rfl

/-- Behind its beginning a leaf tells of a record at most before it does anything. -/
theorem told_journal (mark : Option Nat) (c : Command) (level : Int) (m : Machine) :
    ∃ es, ((Tree.leaf mark c).told level m).world.journal
        = m.world.journal ++ .began m.proc mark c :: es ∧ ∀ e ∈ es, e.traveller? = none := by
  have hquiet : Quiet (m.note (.began m.proc mark c)) ((Tree.leaf mark c).told level m) :=
    Keeps.debug runner _ _
  obtain ⟨es, hes, hnone⟩ := hquiet.plain.rooted
  exact ⟨es, hes.trans (List.append_assoc ..), hnone⟩

/-- An assignment moves nothing; if it disturbs the variables that tell of the directory, the journal
tells so. -/
theorem setVariable_led {name value : Text}
    (hkind : rules.kind (c.verb.expand m.proc.table) = .assignment name value) (level : Int) :
    Led rules m ((setVariable name value).after ((Tree.leaf mark c).told level m)) := by
  obtain ⟨es, hes, hnone⟩ := told_journal mark c level m
  have hproc := (Tree.leaf mark c).told_idle level m
  have hhome := told_homebound mark c level m
  generalize (Tree.leaf mark c).told level m = k at hes hproc hhome
  let set : Machine := { k with proc.table := k.proc.table.set name value }
  have hquiet : Quiet set ((setVariable name value).after k) :=
    Keeps.bind (R := Quiet) (.debug _ _) (fun _ => .pure _) set
  obtain ⟨fs, hfs, hnone'⟩ := hquiet.plain.rooted
  have hafter : ∀ e ∈ es ++ fs, e.traveller? = none := List.forall_mem_append.2 ⟨hnone, hnone'⟩
  have hjournal : ((setVariable name value).after k).world.journal
      = m.world.journal ++ .began m.proc mark c :: (es ++ fs) := by
    rw [hfs, ← List.cons_append, ← List.append_assoc, ← hes]
  refine .of_leaf (hquiet.same.pid.trans hhome.pid) (hquiet.plain.nextPid.trans hhome.nextPid) hjournal
    ?_ fun hfree hhomed => ?_
  · intro e he pid htravel
    simp [hafter e he] at htravel
  · have hstay : ∀ e ∈ es ++ fs, e.traveller? ≠ some m.proc.pid :=
      fun e he => by simp [hafter e he]
    have hassigned : (Entry.began m.proc mark c).assigned? rules m.proc.pid = some name := by
      simp [Entry.assigned?, hkind, Kind.assigned?]
    obtain ⟨-, hpwd, hold⟩ := hfree _ List.mem_cons_self
    rw [hassigned] at hpwd hold
    have hkept (other : Text) (hne : some name ≠ some other) :
        ((setVariable name value).after k).proc.table.get? other = m.proc.table.get? other := by
      rw [hquiet.same.table, ← hproc]
      exact Table.get?_set_of_ne _ _ fun h => hne (congrArg some h.symm)
    rw [departures_eq_nil hstay]
    refine .of_eq hhomed ?_ (hkept _ hpwd) (hkept _ hold)
    rw [hquiet.same.cwd, ← hproc]

/-- A change of directory leaves the process as it is and where it is, or the process goes to
another place. Then its variables tell so, unless it does not learn where it has come to. -/
theorem changeDirectory_travels (c : Command) (m : Machine) :
    Rooted m ((changeDirectory c).after m) ∧ ((changeDirectory c).after m).proc = m.proc ∨
    ∃ path place, Rooted (m.left path place) ((changeDirectory c).after m) ∧
      (((changeDirectory c).after m).proc = m.proc.arrived place ∨
        ∃ e ∈ (m.left path place).since ((changeDirectory c).after m), e.failed? = some .getcwd) := by
  have hasked (k : Machine) : Rooted k k.located := .called k .getcwd rfl
  have hlogged {k n : Machine} {message : Text} (h : debug runner message k = .ok () n) : Rooted k n :=
    ((Keeps.debug (R := Quiet) runner message).of_ok h).plain.rooted
  have hmissed {k n : Machine} (h : Rooted k n) (e : Errno) :
      Rooted k (n.unlocated e) ∧ ∃ d ∈ k.since (n.unlocated e), d.failed? = some .getcwd := by
    have hcounted : Rooted k (n.counted .getcwd) := Frame.trans h (.of_eq rfl)
    exact ⟨Frame.trans h (.called n .getcwd rfl), _, Machine.mem_since_note hcounted.recorded _, rfl⟩
  have harrived (target : Text) (place : Place) : Rooted (m.left target place) (m.arrived target place) :=
    hasked (m.left target place)
  have hchanges := changeDirectory_changes c m
  unfold after
  generalize changeDirectory c m = r at hchanges
  cases hchanges with
  | nowhere _ hlog => exact Or.inl ⟨hlogged hlog, debug_idle hlog⟩
  | lost e => exact Or.inl ⟨.called m .getcwd rfl, rfl⟩
  | illegible _ _ => exact Or.inl ⟨hasked m, rfl⟩
  | @refused target _ e _ _ _ hlog =>
    have hrefused : Rooted m.located (m.located.unmoved target e) := .called m.located .chdir rfl
    have hproc := debug_idle hlog
    exact Or.inl ⟨Frame.trans (hasked m) (Frame.trans hrefused (hlogged hlog)), hproc⟩
  | astray _ _ _ e =>
    obtain ⟨hstay, hlost⟩ := hmissed (Frame.refl (m.left _ _)) e
    exact Or.inr ⟨_, _, hstay, Or.inr hlost⟩
  | untold _ _ _ e =>
    obtain ⟨hstay, hlost⟩ := hmissed (harrived _ _) e
    exact Or.inr ⟨_, _, hstay, Or.inr hlost⟩
  | arrived _ _ _ hlog =>
    have hstay := Frame.trans (harrived _ _) (Frame.trans (hasked _) (hlogged hlog))
    have hproc := debug_idle hlog
    exact Or.inr ⟨_, _, hstay, Or.inl hproc⟩

/-- A leaf goes to another place and tells so, unless something disturbs it. -/
theorem Led.of_gone {es fs : List Entry} {path : Text} {place : Place}
    (hpid : n.proc.pid = m.proc.pid) (hnext : n.world.nextPid = m.world.nextPid)
    (hjournal : n.world.journal = m.world.journal ++
      .began m.proc mark c :: (es ++ .called m.proc.pid (.chdir path (.ok ())) :: fs))
    (hes : ∀ e ∈ es, e.traveller? = none) (hfs : ∀ e ∈ fs, e.traveller? = none)
    (hend : n.proc = m.proc.arrived place ∨ ∃ e ∈ fs, e.failed? = some .getcwd) :
    Led rules m n := by
  have hothers {es : List Entry} (h : ∀ e ∈ es, e.traveller? = none) :
      ∀ e ∈ es, e.traveller? ≠ some m.proc.pid := fun e he => by simp [h e he]
  have hdepartures : departures m.proc.pid m.proc.cwd
      (es ++ .called m.proc.pid (.chdir path (.ok ())) :: fs) = [m.proc.cwd] := by
    rw [departures_append_of_ne (hothers hes), departures, if_pos rfl,
      departures_eq_nil (hothers hfs)]
  refine .of_leaf hpid hnext hjournal (fun e he pid htravel => ?_) fun hfree _ => ?_
  · rcases List.mem_append.1 he with he | he
    · simp [hes e he] at htravel
    · rcases List.mem_cons.1 he with rfl | he
      · exact (Option.some.inj htravel).symm
      · simp [hfs e he] at htravel
  · rw [hdepartures]
    rcases hend with harrived | ⟨e, he, hlost⟩
    · rw [harrived]
      exact .arrived m.proc place
    · have hmem : e ∈ .began m.proc mark c ::
          (es ++ .called m.proc.pid (.chdir path (.ok ())) :: fs) := by simp [he]
      exact absurd hlost (hfree e hmem).1

/-- A change of directory moves the process and its variables alike. -/
theorem changeDirectory_led (mark : Option Nat) (c : Command) (level : Int) (m : Machine) :
    Led rules m ((changeDirectory c).after ((Tree.leaf mark c).told level m)) := by
  obtain ⟨es, hes, hnone⟩ := told_journal mark c level m
  have hproc : ((Tree.leaf mark c).told level m).proc = m.proc := (Tree.leaf mark c).told_idle level m
  have htold : Led rules m ((Tree.leaf mark c).told level m) := Tree.told_of Led.began _ level m
  have htoldhome := told_homebound mark c level m
  have hhome := Keeps.changeDirectory_homebound c ((Tree.leaf mark c).told level m)
  have htravels := changeDirectory_travels c ((Tree.leaf mark c).told level m)
  generalize (Tree.leaf mark c).told level m = k at hes hproc htold htoldhome hhome htravels
  generalize (changeDirectory c).after k = n at hhome htravels
  rcases htravels with ⟨hstay, hsame⟩ | ⟨path, place, ⟨fs, hfs, hnone'⟩, hend⟩
  · exact htold.trans (.of_rooted hstay hhome.pid hhome.nextPid (by rw [hsame]) (by rw [hsame]))
  · have hboth := htoldhome.trans hhome
    have hasked : ∀ e ∈ es ++ [.called m.proc.pid (.getcwd (.ok m.proc.cwd))], e.traveller? = none :=
      List.forall_mem_append.2 ⟨hnone, by simp [Entry.traveller?]⟩
    have hleft : (k.left path place).world.journal = k.world.journal ++
        [.called m.proc.pid (.getcwd (.ok m.proc.cwd)), .called m.proc.pid (.chdir path (.ok ()))] := by
      rw [← hproc]
      exact List.append_assoc ..
    have hjournal : n.world.journal = m.world.journal ++ .began m.proc mark c ::
        (es ++ [.called m.proc.pid (.getcwd (.ok m.proc.cwd))] ++
          .called m.proc.pid (.chdir path (.ok ())) :: fs) := by simp [hfs, hleft, hes]
    rw [Machine.since_eq hfs, hproc] at hend
    exact .of_gone hboth.pid hboth.nextPid hjournal hasked hnone' hend

/-- Whatever a leaf does, the running process is told of. -/
theorem runLeaf_led (rules : Rules) (mark : Option Nat) (c : Command) (level : Int) :
    Keeps (Led rules) (runLeaf rules mark c level) := by
  intro m
  rw [after_eq_of_eq (runLeaf_eq rules mark c level m)]
  have htold : Led rules m ((Tree.leaf mark c).told level m) := Tree.told_of Led.began _ level m
  unfold Rules.perform
  cases hkind : rules.kind (c.verb.expand m.proc.table) with
  | assignment name value => exact setVariable_led hkind level
  | change => exact changeDirectory_led mark c level m
  | external => exact htold.trans (runExternal_led rules c _)
  | finish =>
    have hend : Keeps (Led rules) (endSession (c.verb.expand m.proc.table)) :=
      .bind (.info _ _) fun _ => .pure _
    exact htold.trans (hend _)

theorem execute_led (rules : Rules) (t : Tree) (level : Int) :
    Keeps (Led rules) (execute rules t level) :=
  .execute_parental (runLeaf_led rules) t level

end Leaves

/-! ### Sessions -/

namespace Shell

variable (shell : Shell)

theorem afterLines_led (lines : List Text) (m : Machine) :
    Led shell.rules m (shell.afterLines lines m) :=
  shell.afterLines_of (execute_led shell.rules · 0) lines m

theorem afterLines_append (lines more : List Text) (m : Machine) :
    shell.afterLines (lines ++ more) m = shell.afterLines more (shell.afterLines lines m) :=
  List.foldl_append

end Shell

/-- **Main result**: a session that begins with `PWD` telling where it is, in which every question for
a directory is answered, and in which the process of the shell itself assigns neither to `PWD` nor to
`OLDPWD`, goes on so, whatever its lines are and whatever becomes of each. After any of its lines
`PWD` tells where the session is, and once its process has changed the directory, `OLDPWD` tells where
that process was just before it last did so. Some lines in which it did not change the directory leave
it and both variables as they were: neither a `cd` that fails nor one that is skipped counts, nor does
one that a child runs. -/
theorem afterLines_whereabouts (shell : Shell) (lines : List Text) (m : Machine)
    (hpid : m.proc.pid < m.world.nextPid)
    (hpwd : m.proc.table.get? "PWD".toList = some m.proc.cwd.path)
    (hfree : Undisturbed shell.rules m.proc.pid (m.since (shell.afterLines lines m)))
    (before more : List Text) (hlines : before ++ more <+: lines) :
    let n := shell.afterLines before m
    let k := shell.afterLines more n
    k.proc.table.get? "PWD".toList = some k.proc.cwd.path ∧
    (∀ place, (departures m.proc.pid m.proc.cwd (m.since k)).getLast? = some place →
      k.proc.table.get? "OLDPWD".toList = some place.path) ∧
    (departures m.proc.pid n.proc.cwd (n.since k) = [] →
      k.proc.cwd = n.proc.cwd ∧
      k.proc.table.get? "PWD".toList = n.proc.table.get? "PWD".toList ∧
      k.proc.table.get? "OLDPWD".toList = n.proc.table.get? "OLDPWD".toList) := by
  intro n k
  obtain ⟨rest, rfl⟩ := hlines
  rw [shell.afterLines_append, shell.afterLines_append] at hfree
  have hbefore : Led shell.rules m n := shell.afterLines_led before m
  have hmore : Led shell.rules n k := shell.afterLines_led more n
  have hrest : Led shell.rules k (shell.afterLines rest k) := shell.afterLines_led rest k
  have hboth : Led shell.rules m k := hbefore.trans hmore
  rw [Machine.since_trans hboth.recorded hrest.recorded] at hfree
  obtain ⟨hfree, -⟩ := List.forall_mem_append.1 hfree
  have hsince : m.since k = m.since n ++ n.since k :=
    Machine.since_trans hbefore.recorded hmore.recorded
  obtain ⟨hfirst, hsecond⟩ := List.forall_mem_append.1 (hsince ▸ hfree)
  have htells := hboth.tells hpid hpwd hfree m.proc.cwd
  have hhomed : n.proc.Homed := (hbefore.tells hpid hpwd hfirst m.proc.cwd).homed
  have hlater : n.proc.pid < n.world.nextPid := hbefore.pid ▸ hpid.trans_le hbefore.nextPid
  have hstays := hmore.tells hlater hhomed (hbefore.pid ▸ hsecond) n.proc.cwd
  rw [hbefore.pid] at hstays
  refine ⟨htells.homed, fun place hlast => ?_, fun hnone => ?_⟩
  · rw [htells.old, hlast]
    rfl
  · have hcwd : k.proc.cwd = n.proc.cwd := hstays.still hnone
    refine ⟨hcwd, ?_, ?_⟩
    · rw [hstays.homed, hhomed, hcwd]
    · rw [hstays.old, hnone]
      rfl

/-- A session goes to `/bin` by way of the root. After that it fails to go elsewhere, for want of the
place, by a planned failure and by a failure that ends the line; it skips a `cd`, and has children run
others. -/
theorem afterLines_whereabouts_wandering :
    let shell : Shell := .ofSettings .standard
    let m := Machine.boot .standard FileTree.home [] [] [⟨.chdir, 4, .accessDenied⟩]
      [("PWD".toList, "/work".toList)]
    let before := ["cd /; cd bin".toList]
    let more := ["cd none; cd /".toList, "cd \x00".toList, "cd $OLDPWD | env & cd ..".toList,
      "true || cd /".toList]
    let n := shell.afterLines before m
    let k := shell.afterLines more n
    m.proc.pid < m.world.nextPid ∧ m.proc.table.get? "PWD".toList = some m.proc.cwd.path ∧
      Undisturbed shell.rules m.proc.pid (m.since (shell.afterLines (before ++ more) m)) ∧
      k.proc.table.get? "PWD".toList = some "/bin".toList ∧
      k.proc.table.get? "OLDPWD".toList = some ['/'] := by
  intro shell m before more n k
  have hpid : m.proc.pid < m.world.nextPid := by decide
  have hpwd : m.proc.table.get? "PWD".toList = some m.proc.cwd.path := by decide
  have hfree : Undisturbed shell.rules m.proc.pid (m.since (shell.afterLines (before ++ more) m)) := by
    decide +kernel
  have hstart : n.proc.cwd = ["bin".toList] := by decide +kernel
  have hwent : (departures m.proc.pid m.proc.cwd (m.since k)).getLast? = some [] := by decide +kernel
  have hstayed : departures m.proc.pid n.proc.cwd (n.since k) = [] := by decide +kernel
  obtain ⟨hthere, hlast, hstays⟩ :=
    afterLines_whereabouts shell _ m hpid hpwd hfree before more (List.prefix_refl _)
  rw [(hstays hstayed).1, hstart] at hthere
  exact ⟨hpid, hpwd, hfree, hthere, hlast [] hwent⟩

end LineShell
