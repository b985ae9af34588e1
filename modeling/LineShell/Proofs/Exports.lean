import Mathlib.Data.List.TakeWhile
import LineShell.Proofs.Order

/-!
# Variables for programs

A program takes the variable table of its process as its environment, whose names must not be
empty or hold `=`. No assignment makes a name that holds `=`, for the name is what stands before
the first one, and `cd` sets names that are fit. An empty name can only come from a verb that
begins with `=`: the strict rule does not take it for an assignment, the loose one does, and then
no program can be entered any more. Everything else keeps tables fit, whatever is run and whatever
fails.

## The model

* `IsExportName` is a name that an environment can have, and `Exportable` a table of such names.
  Both are decidable.
* `Exports` is the frame of runs that keep the table of the running process fit and in which every
  process that the journal tells of has a fit table, as long as nothing is assigned to the empty
  name.
* `Shell.afterLines` is the machine that lines leave which are run one after the other, whatever
  becomes of each, so that a line which breaks off is no end of what is said.
* `Fails` says that all failures of an action are as a condition says.

## What is proved

* The name that a verb assigns to holds no `=`, and under the strict rule it is not empty
  (`Rules.kind_assignment`).
* A child works on a copy of the table of its maker, so what it assigns breaks nothing for its
  maker (`Exports.birth`). So every tree keeps `Exports` (`execute_exports`), and lines do
  (`Shell.afterLines_exports`).
* A process with a fit table is not kept from a program by the name of a variable
  (`runProgram_ne_illegalName`), and its child does not die of one (`runChild_ne_illegalName`).

The loose rule has a run of its own behind the main result: one line that assigns to the empty
name, and a program behind it that cannot be entered. Values are not looked at, and a NUL in one
is another matter.
-/

namespace LineShell

open Act

/-! ### Tables -/

/-- A name that an environment can have. -/
def IsExportName (name : Text) : Prop := name ≠ [] ∧ '=' ∉ name

instance (name : Text) : Decidable (IsExportName name) := inferInstanceAs (Decidable (_ ∧ _))

namespace Table

/-- A table that can be the environment of a program. -/
def Exportable (t : Table) : Prop := ∀ e ∈ t, IsExportName e.1

instance (t : Table) : Decidable t.Exportable := inferInstanceAs (Decidable (∀ e ∈ t, _))

variable {t : Table} {name : Text}

theorem Exportable.set (h : t.Exportable) (hname : IsExportName name) (value : Text) :
    (t.set name value).Exportable := by
  induction t with
  | nil => simpa [Table.set, Exportable] using hname
  | cons e es ih =>
    obtain ⟨he, hes⟩ := List.forall_mem_cons.1 h
    unfold Table.set
    split
    · exact List.forall_mem_cons.2 ⟨hname, hes⟩
    · exact List.forall_mem_cons.2 ⟨he, ih hes⟩

/-- A program does not refuse such a table for its names. -/
theorem Exportable.environmentFault? (h : t.Exportable) :
    LineShell.environmentFault? t ≠ some .illegalName := by
  induction t with
  | nil => exact nofun
  | cons e es ih =>
    obtain ⟨name, value⟩ := e
    obtain ⟨⟨hempty, hsign⟩, hes⟩ := List.forall_mem_cons.1 h
    have hlegal : ¬ (name = [] ∨ name.contains '=' = true) := by
      rintro (hname | hname)
      · exact hempty hname
      · exact hsign (List.contains_iff_mem.1 hname)
    unfold LineShell.environmentFault?
    split
    · exact nofun
    · rw [if_neg (by simpa using hlegal)]
      exact ih hes

end Table

/-! ### Assignments -/

/-- The name of an assignment stands before the first `=`. -/
theorem sign_not_mem_of_splitAssignment {verb name value : Text}
    (h : splitAssignment verb = some (name, value)) : '=' ∉ name := by
  unfold splitAssignment at h
  split at h
  · cases h
  · obtain ⟨rfl, -⟩ := Prod.mk.inj (Option.some.inj h)
    intro hmem
    simpa using List.mem_takeWhile_imp hmem

/-- The name that a verb assigns to holds no `=`; under the strict rule it is not empty either. -/
theorem Rules.kind_assignment {rules : Rules} {verb name value : Text}
    (h : rules.kind verb = .assignment name value) :
    '=' ∉ name ∧ (rules.strict = true → name ≠ []) := by
  unfold kind at h
  split at h
  · next hassigns =>
    split at h
    · next n v hsplit =>
      obtain ⟨rfl, rfl⟩ := Kind.assignment.inj h
      refine ⟨sign_not_mem_of_splitAssignment hsplit, ?_⟩
      rintro hstrict rfl
      simp [isAssignment, hsplit, hstrict, isPlainName] at hassigns
    · cases h
  · split at h
    · cases h
    · split at h <;> cases h

/-- Whether a journal entry tells of an assignment to the empty name. -/
def Entry.bindsNothing (rules : Rules) : Entry → Bool
  | .began p _ c =>
    match rules.kind (c.verb.expand p.table) with
    | .assignment [] _ => true
    | _ => false
  | _ => false

/-- Under the strict rule there is no such assignment. -/
theorem Entry.bindsNothing_of_strict {rules : Rules} (h : rules.strict = true) (e : Entry) :
    e.bindsNothing rules = false := by
  unfold bindsNothing
  split
  · split
    · next hkind => exact absurd rfl ((Rules.kind_assignment hkind).2 h)
    · rfl
  · rfl

/-! ### Runs -/

/-- The variables of the process that, as a journal entry tells, began a leaf or became a program. -/
def Entry.table? : Entry → Option Table
  | .began p _ _ => some p.table
  | .entered p _ => some p.table
  | _ => none

theorem Entry.table?_of_isPlain {e : Entry} (h : e.isPlain = true) : e.table? = none := by
  cases e with
  | began p mark c => exact nomatch h
  | entered p argv => exact nomatch h
  | _ => rfl

/-- Where a process begins with a fit table and nothing is assigned to the empty name, it ends with
a fit table, and so are the tables that the journal tells of. -/
def Exports (rules : Rules) (m m' : Machine) : Prop :=
  ∃ es, m'.world.journal = m.world.journal ++ es ∧
    (m.proc.table.Exportable → (∀ e ∈ es, e.bindsNothing rules = false) →
      m'.proc.table.Exportable ∧ ∀ e ∈ es, ∀ t, e.table? = some t → t.Exportable)

namespace Exports

variable {rules : Rules} {m m₁ m' : Machine}

theorem refl (m : Machine) : Exports rules m m := ⟨[], by simp, fun h _ => ⟨h, by simp⟩⟩

theorem trans (h : Exports rules m m₁) (h' : Exports rules m₁ m') : Exports rules m m' := by
  obtain ⟨es, hes, hfit⟩ := h
  obtain ⟨fs, hfs, hfit'⟩ := h'
  refine ⟨es ++ fs, by rw [hfs, hes, List.append_assoc], fun htable hnames => ?_⟩
  obtain ⟨htable₁, htold⟩ := hfit htable fun e he => hnames e (List.mem_append_left _ he)
  obtain ⟨htable', htold'⟩ := hfit' htable₁ fun e he => hnames e (List.mem_append_right _ he)
  refine ⟨htable', fun e he => ?_⟩
  rcases List.mem_append.1 he with he | he
  · exact htold e he
  · exact htold' e he

theorem of_plain (h : m.world.Plain m'.world) (htable : m'.proc.table = m.proc.table) :
    Exports rules m m' := by
  obtain ⟨es, hes, hplain⟩ := h.journal
  refine ⟨es, hes, fun hfit _ => ⟨htable ▸ hfit, fun e he t ht => ?_⟩⟩
  simp [Entry.table?_of_isPlain (hplain e he)] at ht

/-- An entry that tells of no table but the one of the running process. -/
theorem note (m : Machine) {e : Entry} (h : ∀ t, e.table? = some t → t = m.proc.table) :
    Exports rules m (m.note e) := by
  refine ⟨[e], rfl, fun hfit _ => ⟨hfit, fun e' he t ht => ?_⟩⟩
  obtain rfl := List.mem_singleton.1 he
  exact h t ht ▸ hfit

/-- A fit name is set. -/
theorem set (m : Machine) {name : Text} (hname : IsExportName name) (value : Text) :
    Exports rules m { m with proc.table := m.proc.table.set name value } :=
  ⟨[], by simp, fun hfit _ => ⟨hfit.set hname value, by simp⟩⟩

end Exports

instance (rules : Rules) : Frame (Exports rules) := ⟨.refl, .trans⟩

instance (rules : Rules) : Lenient (Exports rules) := ⟨fun h => .of_plain h rfl⟩

instance (rules : Rules) : Forgetful (Exports rules) :=
  ⟨fun {m _} h => .of_plain (.refl m.world) h.table⟩

/-- A child works on a copy of the table of its maker. -/
theorem Exports.birth {rules : Rules} {work : Act ChildEnd} {raw : Nat} {m m' : Machine}
    (hwork : Keeps (Exports rules) work) (h : Birth work raw m m') : Exports rules m m' := by
  obtain ⟨dead, hlived, hq⟩ := h
  have hlife : Exports rules m.born dead :=
    (hwork m.born).trans (hlived.after fun n _ => .note n (by simp [Entry.table?]))
  obtain ⟨es, hes, hfit⟩ := hlife
  obtain ⟨fs, hfs, hsub, htold⟩ := Machine.journal_of_outlived hes hq
  refine ⟨fs, hfs, fun htable hnames => ?_⟩
  have hlived := (hfit htable fun e he => hnames e (hsub he)).2
  refine ⟨hq.same.table ▸ htable, fun e he t ht => ?_⟩
  rcases htold e he with rfl | he | hplain
  · cases ht
  · exact hlived e he t ht
  · simp [Entry.table?_of_isPlain hplain] at ht

instance (rules : Rules) : Parental (Exports rules) where
  rebound h := .of_plain h.plain h.table
  birth := Exports.birth
  await _ := .await_of (.wait_of (fun m _ => .note m (by simp [Entry.table?])) fun m _ => .refl m)

theorem changeDirectory_exports (rules : Rules) (c : Command) :
    Keeps (Exports rules) (changeDirectory c) := by
  refine .changeDirectory_of ?_ (fun path => ?_) (fun name hname value m => ?_) c
  · exact .getcwd_of fun m r => .note m (by simp [Entry.table?])
  · exact .chdir_of (fun m r => .note m (by simp [Entry.table?])) fun m place =>
      .of_plain (.refl m.world) rfl
  · refine .set m ?_ value
    have hboth : ∀ name ∈ ["OLDPWD".toList, "PWD".toList], IsExportName name := by decide
    exact hboth name hname

theorem runExternal_exports (rules : Rules) (c : Command) :
    Keeps (Exports rules) (runExternal c) := by
  refine .runExternal_parental ?_
  refine Keeps.runChild_of (fun _ _ h => .of_plain h.plain h.table) (fun m argv => ?_)
    (fun m raw => ?_) c
  · exact .note m fun t ht => (Option.some.inj ht).symm
  · exact .note m (by simp [Entry.table?])

/-- A leaf is told of with the table that it finds. An assignment to a name that is not empty sets a
fit name. -/
theorem runLeaf_exports (rules : Rules) (mark : Option Nat) (c : Command) (level : Int) :
    Keeps (Exports rules) (runLeaf rules mark c level) := by
  intro m
  rw [after_eq_of_eq (runLeaf_eq rules mark c level m)]
  have hbegan : Exports rules m ((Tree.leaf mark c).told level m) :=
    Tree.told_of (fun m _ _ => .note m fun t ht => (Option.some.inj ht).symm) _ level m
  unfold Rules.perform
  cases hkind : rules.kind (c.verb.expand m.proc.table) with
  | change => exact hbegan.trans (changeDirectory_exports rules c _)
  | external => exact hbegan.trans (runExternal_exports rules c _)
  | finish =>
    have hend : Keeps (Exports rules) (endSession (c.verb.expand m.proc.table)) :=
      .bind (.info _ _) fun _ => .pure _
    exact hbegan.trans (hend _)
  | assignment name value =>
    by_cases hempty : name = []
    · -- what follows does not matter, for the journal tells of an assignment to the empty name
      subst hempty
      have hset : Keeps Recorded (setVariable [] value) :=
        .bind (fun m => Frame.refl (R := Recorded) m) fun _ => .bind (.debug _ _) fun _ => .pure _
      have hlog := Keeps.debug (R := Recorded) runner
        (levelText level ++ "Simple command: ".toList ++ c.shown) (m.note (.began m.proc mark c))
      obtain ⟨es, hes⟩ := Frame.trans hlog (hset _)
      refine ⟨.began m.proc mark c :: es, ?_, fun _ hnames => ?_⟩
      · refine hes.symm.trans ?_
        simp [Machine.note, World.note]
      · have hbinds := hnames _ List.mem_cons_self
        simp [Entry.bindsNothing, hkind] at hbinds
    · have hname : IsExportName name := ⟨hempty, (Rules.kind_assignment hkind).1⟩
      have hset : Keeps (Exports rules) (setVariable name value) :=
        .bind (fun m => .set m hname value) fun _ => .bind (.debug _ _) fun _ => .pure _
      exact hbegan.trans (hset _)

theorem execute_exports (rules : Rules) (t : Tree) (level : Int) :
    Keeps (Exports rules) (execute rules t level) :=
  .execute_parental (runLeaf_exports rules) t level

/-! ### Sessions -/

namespace Shell

variable (shell : Shell)

/-- What trees keep, a line keeps. -/
theorem runLine_of {R : Machine → Machine → Prop} [Heedless R]
    (h : ∀ t, Keeps R (execute shell.rules t 0)) (line : Text) : Keeps R (shell.runLine line) := by
  have hlast (f : Proc → Proc) (hf : ∀ p : Proc, p.Same (f p)) : Keeps R (modifyProc f) :=
    fun m => Heedless.same (hf m.proc)
  unfold runLine
  split
  · refine .bind (.report _) fun _ => .bind (hlast _ fun p => ?_) fun _ => .pure _
    exact ⟨rfl, rfl, rfl, rfl⟩
  · exact .pure _
  · refine .bind (.debug _ _) fun _ => .bind (hlast _ fun p => ?_) fun _ => ?_
    · exact ⟨rfl, rfl, rfl, rfl⟩
    · refine .bind (h _) fun _ => ?_
      refine .bind (hlast _ fun p => ?_) fun _ => .pure _
      exact ⟨rfl, rfl, rfl, rfl⟩

/-- The machine that lines leave which are run one after the other, whatever becomes of each. -/
def afterLines (lines : List Text) (m : Machine) : Machine :=
  lines.foldl (fun m line => (shell.runLine line).after m) m

/-- What trees keep, lines keep that are run one after the other. -/
theorem afterLines_of {R : Machine → Machine → Prop} [Heedless R]
    (h : ∀ t, Keeps R (execute shell.rules t 0)) (lines : List Text) (m : Machine) :
    R m (shell.afterLines lines m) := by
  induction lines generalizing m with
  | nil => exact Frame.refl m
  | cons line lines ih => exact Frame.trans (shell.runLine_of h line m) (ih _)

theorem afterLines_exports (lines : List Text) (m : Machine) :
    Exports shell.rules m (shell.afterLines lines m) :=
  shell.afterLines_of (execute_exports shell.rules · 0) lines m

end Shell

/-! ### Children that run commands -/

namespace Act

variable {α β : Type} {P : Failure → Prop}

/-- An action whose failures are all as `P` says. -/
def Fails (P : Failure → Prop) (a : Act α) : Prop := ∀ m e m', a m = .error e m' → P e

namespace Fails

theorem pure (x : α) : Fails P (Pure.pure x : Act α) :=
  fun _ _ _ h => nomatch (h : EStateM.Result.ok _ _ = _)

theorem throw {e : Failure} (h : P e) : Fails P (MonadExcept.throw e : Act α) := by
  intro m e' m' he
  obtain ⟨rfl, -⟩ := EStateM.Result.error.inj (he : EStateM.Result.error _ _ = _)
  exact h

theorem of_answers {a : Act α} (h : Answers a) : Fails P a := by
  intro m e m' he
  obtain ⟨x, n, hx⟩ := h m
  exact nomatch he.symm.trans hx

theorem bind {a : Act α} {f : α → Act β} (ha : Fails P a) (hf : ∀ x, Fails P (f x)) :
    Fails P (a >>= f) := by
  intro m e m' h
  rcases bind_eq_error.1 h with hr | ⟨x, n, -, hr⟩
  · exact ha m e m' hr
  · exact hf x n e m' hr

/-- What is done about a failure can rely on it. -/
theorem attempt_bind {a : Act α} {f : Except Failure α → Act β} (ha : Fails P a)
    (hf : ∀ r, (∀ e, r = .error e → P e) → Fails P (f r)) : Fails P (Act.attempt a >>= f) := by
  intro m e m' h
  rcases bind_eq_error.1 h with hr | ⟨r, m₁, hr, h⟩
  · exact absurd hr (attempt_ne_error a m)
  · refine hf r (fun e₁ he => ?_) m₁ e m' h
    subst he
    rcases attempt_eq_ok hr with ⟨x, hx, -⟩ | ⟨e₂, he, hfail⟩
    · simp at hx
    · exact Except.error.inj he ▸ ha m e₂ m₁ hfail

theorem forM {f : β → Act PUnit} {xs : List β} (h : ∀ x, Fails P (f x)) : Fails P (xs.forM f) := by
  induction xs with
  | nil => exact .pure ()
  | cons x xs ih => exact .bind (h x) fun _ => ih

/-- A call that is answered fails with what the system says. -/
theorem answered (hsystem : ∀ e path, P (.system e path)) {path : Option Text} {c : CallName}
    {event : Except Errno α → Event} {work : Machine → Except Errno (α × Machine)} :
    Fails P (do answer path (← call c event work)) := by
  refine .bind (.of_answers fun m => ?_) fun r => ?_
  · rcases call_cases c event work m with ⟨e, h⟩ | ⟨x, next, -, h⟩
    · exact ⟨_, _, h⟩
    · exact ⟨_, _, h⟩
  · cases r with
    | ok x => exact .pure x
    | error e => exact .throw (hsystem e path)

variable (hsystem : ∀ e path, P (.system e path))
include hsystem

theorem report (message : Text) : Fails P (Act.report message) := by
  intro m e m' h
  unfold Act.report say writeText at h
  split at h
  · exact nomatch h
  · obtain ⟨rfl, -⟩ := EStateM.Result.error.inj h
    exact hsystem _ _

theorem closeOpened (opened : List Nat) : Fails P (LineShell.closeOpened opened) :=
  .forM fun _ => .answered hsystem

variable (hnul : P .embeddedNull)
include hnul

theorem openFile (path : Text) (mode : OpenMode) : Fails P (Act.openFile path mode) := by
  refine .bind ?_ fun _ => .answered hsystem
  unfold refuseNul
  split
  · exact .throw hnul
  · exact .pure ()

/-- To bind streams can fail with what the system says, or because a path holds a NUL. -/
theorem bindAll (opened : List Nat) (bs : List Binding) : Fails P (LineShell.bindAll opened bs) := by
  induction bs generalizing opened with
  | nil => exact .closeOpened hsystem opened
  | cons b bs ih =>
    refine .attempt_bind (.openFile hsystem hnul _ _) fun r hr => ?_
    cases r with
    | error e => exact .bind (.closeOpened hsystem _) fun _ => .throw (hr e rfl)
    | ok fd =>
      refine .attempt_bind (.forM fun _ => .answered hsystem) fun r hr => ?_
      cases r with
      | error e => exact .bind (.closeOpened hsystem _) fun _ => .throw (hr e rfl)
      | ok _ => exact ih _

end Fails

/-- Only what is wrong with its texts keeps a process from asking for a program. -/
theorem exec_eq_error {file : Text} {argv : List Text} {m m' : Machine} {e : Failure}
    (h : exec file argv m = .error e m') : imageFault? file argv m.proc.table = some e := by
  rw [exec_eq, bind_eq] at h
  cases hfault : imageFault? file argv m.proc.table with
  | some e₁ =>
    rw [hfault] at h
    obtain ⟨rfl, -⟩ := EStateM.Result.error.inj (h : EStateM.Result.error _ _ = _)
    rfl
  | none =>
    rw [hfault] at h
    have hanswers : Answers (call .exec (execEvent file argv) (findProgram m.proc.table file) >>=
        enter m.proc argv) := by
      refine .bind (fun n => ?_) fun r => ?_
      · rcases call_cases .exec (execEvent file argv) (findProgram m.proc.table file) n with
          ⟨e₁, hc⟩ | ⟨x, next, -, hc⟩
        · exact ⟨_, _, hc⟩
        · exact ⟨_, _, hc⟩
      · cases r with
        | error e₁ => exact .pure _
        | ok found => exact fun n => ⟨_, _, rfl⟩
    obtain ⟨x, n, hx⟩ := hanswers m
    exact nomatch hx.symm.trans h

end Act

theorem imageFault?_ne_illegalName {t : Table} (h : t.Exportable) (file : Text) (argv : List Text) :
    imageFault? file argv t ≠ some .illegalName := by
  unfold imageFault?
  split
  · exact nofun
  · exact h.environmentFault?

/-- A child that reports something exits, unless the system keeps it from reporting. -/
theorem reportExit_ne_illegalName {message : Text} {code : Nat} {m m' : Machine} :
    (do report message; return .exit code : Act ChildEnd) m ≠ .error .illegalName m' := by
  have hfails : Fails (· ≠ .illegalName) (do report message; return .exit code : Act ChildEnd) :=
    .bind (.report (fun _ _ => nofun) message) fun _ => .pure _
  exact fun h => hfails m _ m' h rfl

/-- A process with a fit table is not kept from a program by the name of a variable. -/
theorem runProgram_ne_illegalName {m : Machine} (h : m.proc.table.Exportable) (argv : List Text)
    (m' : Machine) : runProgram argv m ≠ .error .illegalName m' := by
  intro hm
  let m₁ : Machine := { m with proc.stats.exec := m.proc.stats.exec + 1 }
  have hfit : m₁.proc.table.Exportable := h
  match argv, hm with
  | [], hm => exact reportExit_ne_illegalName hm
  | [] :: _, hm => exact reportExit_ne_illegalName hm
  | (c :: file) :: args, hm =>
    replace hm : (exec (c :: file) ((c :: file) :: args) >>= _ : Act ChildEnd) m₁
      = .error .illegalName m' := hm
    rcases bind_eq_error.1 hm with hr | ⟨r, n, -, hm⟩
    · exact imageFault?_ne_illegalName hfit _ _ (exec_eq_error hr)
    · cases r with
      | ok raw => exact nomatch (hm : EStateM.Result.ok _ _ = _)
      | error e => cases e <;> exact reportExit_ne_illegalName hm

/-- A child that runs a command with a fit table does not die of the name of a variable. -/
theorem runChild_ne_illegalName {m : Machine} (h : m.proc.table.Exportable) (c : Command)
    (m' : Machine) : runChild c m ≠ .error .illegalName m' := by
  intro hm
  unfold runChild at hm
  have hredirects : Fails (· ≠ .illegalName) (applyRedirects c) :=
    .bind (fun _ _ _ h => nomatch (h : EStateM.Result.ok _ _ = _)) fun _ =>
      .bindAll (fun _ _ => nofun) nofun _ _
  rcases bind_eq_error.1 hm with hr | ⟨r, n, hr, hm⟩
  · exact attempt_ne_error _ _ hr
  · rcases attempt_eq_ok hr with ⟨_, rfl, hdone⟩ | ⟨e, rfl, hfail⟩
    · have htable : n.proc.table = m.proc.table := ((Keeps.applyRedirects c).of_ok hdone).table
      exact runProgram_ne_illegalName (htable ▸ h) _ m' hm
    · cases e with
      | illegalName => exact hredirects m _ n hfail rfl
      | system e path => exact reportExit_ne_illegalName hm
      | _ => exact nomatch (EStateM.Result.error.inj (hm : EStateM.Result.error _ _ = _)).1

/-! ### Tables stay fit -/

/-- **Main result**: under the strict rule, and under the loose one as long as nothing is assigned to
the empty name, a session that begins with a fit table keeps it fit, whatever its lines are and
whatever becomes of each. So are the tables of all processes that begin a leaf or become a program on
the way, and a child with a fit table does not die of the name of a variable. -/
theorem afterLines_exportable (shell : Shell) (lines : List Text) (m : Machine)
    (hfit : m.proc.table.Exportable)
    (hnames : shell.settings.strictAssignments = true ∨
      ∀ e ∈ m.since (shell.afterLines lines m), e.bindsNothing shell.rules = false) :
    (shell.afterLines lines m).proc.table.Exportable ∧
      (∀ e ∈ m.since (shell.afterLines lines m), ∀ t, e.table? = some t → t.Exportable) ∧
      ∀ (n : Machine) (c : Command) (k : Machine), n.proc.table.Exportable →
        runChild c n ≠ .error .illegalName k := by
  obtain ⟨es, hes, hkept⟩ := shell.afterLines_exports lines m
  have hsince : m.since (shell.afterLines lines m) = es := Machine.since_eq hes
  rw [hsince] at hnames ⊢
  have hlegal : ∀ e ∈ es, e.bindsNothing shell.rules = false := by
    rcases hnames with hstrict | hnames
    · exact fun e _ => e.bindsNothing_of_strict hstrict
    · exact hnames
  obtain ⟨htable, htold⟩ := hkept hfit hlegal
  exact ⟨htable, htold, fun n c k hn => runChild_ne_illegalName hn c k⟩

/-- A session with the loose rule. -/
def looseShell : Shell := .ofSettings { Settings.standard with strictAssignments := false }

/-- Under the loose rule a name need not be plain to be fit: the second `=` belongs to the value, and
the program that comes after is entered. -/
theorem afterLines_exportable_loose :
    let m := Machine.boot .standard FileTree.home [] [] [] []
    let lines := ["./a=b=c".toList, "cd /".toList, "env".toList]
    m.proc.table.Exportable ∧ (looseShell.afterLines lines m).proc.table.Exportable ∧
      (looseShell.afterLines lines m).proc.table.get? "./a".toList = some "b=c".toList := by
  intro m lines
  have hfit : m.proc.table.Exportable := by decide
  have hnames : ∀ e ∈ m.since (looseShell.afterLines lines m),
      e.bindsNothing looseShell.rules = false := by decide +kernel
  have hkept := afterLines_exportable looseShell lines m hfit (Or.inr hnames)
  exact ⟨hfit, hkept.1, by decide +kernel⟩

/-- The failure that is logged with a record. -/
def Entry.cause? : Entry → Option Failure
  | .logged r => r.cause
  | _ => none

/-- The loose rule takes `=x` for an assignment to the empty name. From then on no program can be
entered: `true` fails, for its child dies of the name of a variable. -/
theorem afterLines_emptyName :
    let m := Machine.boot .standard FileTree.home [] [] [] []
    let n := looseShell.afterLines ["=x".toList] m
    m.proc.table.Exportable ∧ n.proc.table = [([], ['x'])] ∧ ¬ n.proc.table.Exportable ∧
      ∃ k, looseShell.runLine "true".toList n = .ok .failure k ∧
        ∃ r, .logged r ∈ n.since k ∧ r.cause = some .illegalName := by
  intro m n
  refine ⟨by decide, by decide +kernel, by decide +kernel, ?_⟩
  have hanswered : answered (looseShell.runLine "true".toList n) = [1] := by decide +kernel
  have hlogged : ∃ e ∈ n.since ((looseShell.runLine "true".toList).after n),
      e.cause? = some .illegalName := by decide +kernel
  obtain ⟨e, he, hcause⟩ := hlogged
  cases hrun : looseShell.runLine "true".toList n with
  | error failure k =>
    rw [hrun] at hanswered
    cases hanswered
  | ok s k =>
    rw [hrun] at hanswered
    rw [after_of_ok hrun] at he
    cases s with
    | terminate => cases hanswered
    | code number =>
      obtain rfl : number = 1 := List.singleton_inj.1 hanswered
      cases e with
      | logged r => exact ⟨k, rfl, r, he, hcause⟩
      | _ => cases hcause

end LineShell
