import LineShell.Execute
import LineShell.Proofs.Files

/-!
# What actions leave alone

Relations between a machine and the machine that an action leaves, however it ends. The world only
grows: open files stay what they are, channels are never taken away, and paths name what they
named. Most actions enter no program, most of those leave the descriptors alone, and those that
change descriptors leave the variables and the working directory alone.

## The model

A `Frame` is a relation between machines that holds of every machine and itself and that composes.
`Keeps R a` says that the action `a` takes every machine to one that is related to it, whether it
answers or fails. `Keeps` goes through everything that actions are built of (`Keeps.bind`,
`Keeps.attempt`, `Keeps.forM`), so a relation has to be looked at only where the machine changes.

What that comes to is sorted by classes of relations, each with one lemma for every action of the
launcher that such a relation is kept by:

* `Logs` and `Tallies` are kept where something is logged or counted;
* `Speaks` is kept where the process makes itself heard on standard error;
* `Moves` and `Mild` are kept where bytes go through descriptors;
* `Heedless` and `Forgetful` do not see what a process counts and remembers;
* `Lenient` asks of the world only that what happened is plain, and `Kernel` only that no program
  was entered.

The relations themselves are graded in the same way. `World.Grows` says that nothing is taken
away, `World.Still` that besides no program was entered, `World.Plain` that no process was made
and none ended, and `World.Mute` that nothing is told. For machines, `Calm` adds that the
descriptors are as they were, `Quiet` that the process is as it was but for counts and memories,
and `Rebound` that descriptors may have changed but not what paths and variables depend on.

`World.Wrote` and `World.Took` list what can become of the world where bytes are written or read
through an open file, with one case for each kind of thing that such a file gives access to.

## What is proved

* `bind_eq_ok`, `bind_eq_error`, `after_bind_cases`, `attempt_eq_ok` and `call_cases` take runs
  apart; later modules use these, and unfold an action of the system only where they tell what it
  does.
* A write succeeds just where `World.Wrote` tells what comes of it (`World.write_eq_ok`), and
  `World.Took` tells what a read comes to (`World.read_eq_ok`). What later modules say of bytes is
  by these cases.
* Reads and writes are plain and leave open files what they are, and each call on descriptors does
  what its name says where it succeeds (`pipe_eq_ok`, `dup_eq_ok`, `close_eq_ok`,
  `openFile_eq_ok`), and is no more than counted and noted where it fails (`answered_eq_error`).
* A serial operator is its left side, and then its right one or a record (`combine_of_serial`).

## What is left out

Children and the programs that they become are not among the actions of this module: what a child
does to the world is up to its work.
-/

namespace LineShell

/-! ### Relations that actions keep -/

namespace Act

variable {α β : Type}

/-- The machine that an action leaves, whether it answers or fails. -/
def after (a : Act α) (m : Machine) : Machine :=
  match a m with
  | .ok _ m => m
  | .error _ m => m

theorem after_of_ok {a : Act α} {x : α} {m m' : Machine} (h : a m = .ok x m') : a.after m = m' := by
  rw [after, h]

theorem after_of_error {a : Act α} {e : Failure} {m m' : Machine} (h : a m = .error e m') :
    a.after m = m' := by
  rw [after, h]

theorem after_eq_of_eq {a b : Act α} {m n : Machine} (h : a m = b n) : a.after m = b.after n := by
  rw [after, after, h]

/-- What a run answers and leaves, if it answers. -/
def answer? : EStateM.Result Failure Machine α → Option (α × Machine)
  | .ok x m => some (x, m)
  | .error _ _ => none

theorem eq_ok_of_answer? {r : EStateM.Result Failure Machine α} {x : α × Machine}
    (h : answer? r = some x) : r = .ok x.1 x.2 := by
  cases r with
  | ok y m => rw [← Option.some.inj h]
  | error e m => exact nomatch (h : none = some x)

/-- An action that stands before another one fails, or the other one goes on where it ends. -/
theorem bind_eq (a : Act α) (f : α → Act β) (m : Machine) :
    (a >>= f) m = match a m with
      | .ok x m' => f x m'
      | .error e m' => .error e m' := by
  show EStateM.bind a f m = _
  unfold EStateM.bind
  cases a m <;> rfl

/-- A run of two actions is a run of the first and a run of the second. -/
theorem bind_eq_ok {a : Act α} {f : α → Act β} {y : β} {m m' : Machine} :
    (a >>= f) m = .ok y m' ↔ ∃ x m₁, a m = .ok x m₁ ∧ f x m₁ = .ok y m' := by
  rw [bind_eq]
  cases a m with
  | error e m₁ => simp
  | ok x m₁ =>
    constructor
    · intro h
      exact ⟨x, m₁, rfl, h⟩
    · rintro ⟨x', m₂, hx, h⟩
      obtain ⟨rfl, rfl⟩ := EStateM.Result.ok.inj hx
      exact h

/-- A run of two actions fails where the first one fails, or else the second one. -/
theorem bind_eq_error {a : Act α} {f : α → Act β} {e : Failure} {m m' : Machine} :
    (a >>= f) m = .error e m' ↔
      a m = .error e m' ∨ ∃ x m₁, a m = .ok x m₁ ∧ f x m₁ = .error e m' := by
  rw [bind_eq]
  cases a m with
  | error e' m₁ => simp
  | ok x m₁ =>
    constructor
    · intro h
      exact Or.inr ⟨x, m₁, rfl, h⟩
    · rintro (h | ⟨x', m₂, hx, h⟩)
      · simp at h
      · obtain ⟨rfl, rfl⟩ := EStateM.Result.ok.inj hx
        exact h

theorem after_bind (a : Act α) (f : α → Act β) (m : Machine) :
    (a >>= f).after m = match a m with
      | .ok x m' => (f x).after m'
      | .error _ m' => m' := by
  rw [after, bind_eq]
  cases a m <;> rfl

/-- A run of two actions ends where the second one ends, or where the first one failed. -/
theorem after_bind_cases (a : Act α) (f : α → Act β) (m : Machine) :
    (∃ x, a m = .ok x (a.after m) ∧ (a >>= f).after m = (f x).after (a.after m)) ∨
      ∃ e, a m = .error e (a.after m) ∧ (a >>= f).after m = a.after m := by
  rw [after_bind, after]
  cases a m with
  | ok x m' => exact Or.inl ⟨x, rfl, rfl⟩
  | error e m' => exact Or.inr ⟨e, rfl, rfl⟩

@[simp] theorem after_attempt (a : Act α) (m : Machine) : (attempt a).after m = a.after m := by
  unfold after attempt
  cases a m <;> rfl

theorem attempt_of_ok {a : Act α} {x : α} {m m' : Machine} (h : a m = .ok x m') :
    attempt a m = .ok (.ok x) m' := by
  rw [attempt, h]

theorem attempt_of_error {a : Act α} {e : Failure} {m m' : Machine} (h : a m = .error e m') :
    attempt a m = .ok (.error e) m' := by
  rw [attempt, h]

/-- What an attempt answers with is what the action came to. -/
theorem attempt_eq_ok {a : Act α} {r : Except Failure α} {m m' : Machine}
    (h : attempt a m = .ok r m') :
    (∃ x, r = .ok x ∧ a m = .ok x m') ∨ ∃ e, r = .error e ∧ a m = .error e m' := by
  cases ha : a m with
  | ok x m₁ =>
    rw [attempt_of_ok ha] at h
    obtain ⟨rfl, rfl⟩ := EStateM.Result.ok.inj h
    exact Or.inl ⟨x, rfl, rfl⟩
  | error e m₁ =>
    rw [attempt_of_error ha] at h
    obtain ⟨rfl, rfl⟩ := EStateM.Result.ok.inj h
    exact Or.inr ⟨e, rfl, rfl⟩

theorem not_throw_eq_ok {e : Failure} {x : α} {m m' : Machine} : (throw e : Act α) m ≠ .ok x m' :=
  fun h => nomatch (h : EStateM.Result.error e m = _)

theorem bind_left_congr {a b : Act α} {f : α → Act β} {m : Machine} (h : a m = b m) :
    (a >>= f) m = (b >>= f) m := by
  rw [bind_eq, bind_eq, h]

theorem attempt_ne_error (a : Act α) (m : Machine) {e : Failure} {m' : Machine} :
    attempt a m ≠ .error e m' := by
  unfold attempt
  cases a m <;> simp

theorem attempt_congr {a b : Act α} {m : Machine} (h : a m = b m) : attempt a m = attempt b m := by
  rw [attempt, attempt, h]

/-- What a call can come to: it fails, and is counted and noted; or its work is done, and noted. -/
theorem call_cases (c : CallName) (event : Except Errno α → Event)
    (work : Machine → Except Errno (α × Machine)) (m : Machine) :
    (∃ e, call c event work m
      = .ok (.error e) ((m.counted c).note (.called m.proc.pid (event (.error e))))) ∨
    ∃ x next, work (m.counted c) = .ok (x, next) ∧
      call c event work m = .ok (.ok x) (next.note (.called m.proc.pid (event (.ok x)))) := by
  unfold call
  split
  · next e _ => exact Or.inl ⟨e, rfl⟩
  · split
    · next x next hw => exact Or.inr ⟨x, next, hw, rfl⟩
    · next e _ => exact Or.inl ⟨e, rfl⟩

/-- An action that never fails. -/
def Answers (a : Act α) : Prop := ∀ m, ∃ x m', a m = .ok x m'

namespace Answers

theorem pure (x : α) : Answers (Pure.pure x : Act α) := fun m => ⟨x, m, rfl⟩

theorem bind {a : Act α} {f : α → Act β} (ha : Answers a) (hf : ∀ x, Answers (f x)) :
    Answers (a >>= f) := by
  intro m
  obtain ⟨x, m₁, hx⟩ := ha m
  obtain ⟨y, m₂, hy⟩ := hf x m₁
  exact ⟨y, m₂, bind_eq_ok.2 ⟨x, m₁, hx, hy⟩⟩

theorem attempt (a : Act α) : Answers (Act.attempt a) := by
  intro m
  unfold Act.attempt
  cases a m with
  | ok x m' => exact ⟨.ok x, m', rfl⟩
  | error e m' => exact ⟨.error e, m', rfl⟩

theorem modifyProc (f : Proc → Proc) : Answers (Act.modifyProc f) := fun _ => ⟨(), _, rfl⟩

/-- Logging never fails, even where standard error cannot be written to. -/
theorem logRecord (r : Record) : Answers (Act.logRecord r) := by
  refine .bind (fun m => ⟨(), _, rfl⟩) fun _ => .bind (fun m => ⟨_, m, rfl⟩) fun w => ?_
  split
  · exact .bind (.attempt _) fun _ => .pure ()
  · exact .pure ()

theorem debug (logger message : Text) : Answers (Act.debug logger message) := logRecord _

/-- Where only the first of two actions can fail, it did. -/
theorem bind_eq_error {a : Act α} {f : α → Act β} (hf : ∀ x, Answers (f x)) {m m' : Machine}
    {e : Failure} (h : (a >>= f) m = .error e m') : a m = .error e m' := by
  rcases Act.bind_eq_error.1 h with ha | ⟨x, m₁, -, hx⟩
  · exact ha
  · obtain ⟨y, m₂, hy⟩ := hf x m₁
    exact nomatch hy.symm.trans hx

end Answers

/-- A relation that holds of every machine and itself, and over any number of steps. -/
class Frame (R : Machine → Machine → Prop) : Prop where
  /-- Nothing happened. -/
  refl (m : Machine) : R m m
  /-- One thing happened after the other. -/
  trans {a b c : Machine} : R a b → R b c → R a c

/-- An action that takes every machine to one that is related to it, however it ends. -/
def Keeps (R : Machine → Machine → Prop) (a : Act α) : Prop := ∀ m, R m (a.after m)

namespace Keeps

variable {R S : Machine → Machine → Prop}

/-- What an action that answers leaves. -/
theorem of_ok {a : Act α} (h : Keeps R a) {m m' : Machine} {x : α} (ha : a m = .ok x m') : R m m' :=
  after_of_ok ha ▸ h m

/-- What an action that fails leaves. -/
theorem of_error {a : Act α} (h : Keeps R a) {m m' : Machine} {e : Failure}
    (ha : a m = .error e m') : R m m' :=
  after_of_error ha ▸ h m

theorem mono {a : Act α} (h : Keeps R a) (hRS : ∀ m m', R m m' → S m m') : Keeps S a :=
  fun m => hRS _ _ (h m)

theorem pure [Frame R] (x : α) : Keeps R (Pure.pure x : Act α) := Frame.refl

theorem throw [Frame R] (e : Failure) : Keeps R (MonadExcept.throw e : Act α) := Frame.refl

/-- What follows an action goes on where the action ended. -/
theorem rest [Frame R] {a : Act α} {f : α → Act β} (hf : ∀ x, Keeps R (f x)) (m : Machine) :
    R (a.after m) ((a >>= f).after m) := by
  rcases after_bind_cases a f m with ⟨x, -, hb⟩ | ⟨e, -, hb⟩
  · rw [hb]
    exact hf x _
  · rw [hb]
    exact Frame.refl _

/-- What follows an action keeps what the action did. -/
theorem behind [Frame R] {a : Act α} {f : α → Act β} {m : Machine} (ha : R m (a.after m))
    (hf : ∀ x, Keeps R (f x)) : R m ((a >>= f).after m) := Frame.trans ha (rest hf m)

theorem bind [Frame R] {a : Act α} {f : α → Act β} (ha : Keeps R a) (hf : ∀ x, Keeps R (f x)) :
    Keeps R (a >>= f) :=
  fun m => behind (ha m) hf

theorem attempt {a : Act α} (h : Keeps R a) : Keeps R (Act.attempt a) := by
  intro m
  rw [after_attempt]
  exact h m

theorem proc [Frame R] : Keeps R Act.proc := Frame.refl

theorem world [Frame R] : Keeps R Act.world := Frame.refl

/-- What follows may depend on the running process as it is. -/
theorem proc_bind {f : Proc → Act β} {m : Machine} (h : R m ((f m.proc).after m)) :
    R m ((Act.proc >>= f).after m) := h

theorem note_bind [Frame R] {e : Entry} {a : Act β} {m : Machine} (h : R m (m.note e))
    (ha : Keeps R a) : R m ((do Act.note e; a).after m) :=
  Frame.trans h (ha (m.note e))

theorem refuse [Frame R] (e : Option Failure) : Keeps R (Act.refuse e) := by
  cases e with
  | none => exact .pure ()
  | some e => exact .throw e

theorem refuseNul [Frame R] (t : Text) : Keeps R (Act.refuseNul t) := .refuse _

theorem answer [Frame R] (path : Option Text) (x : Except Errno α) : Keeps R (Act.answer path x) := by
  cases x with
  | ok x => exact .pure x
  | error e => exact .throw _

theorem ofExcept [Frame R] (x : Except Failure α) : Keeps R (MonadExcept.ofExcept x : Act α) := by
  cases x with
  | ok x => exact .pure x
  | error e => exact .throw e

theorem failure [Frame R] {f : Failure → Act Unit} (h : ∀ e, Keeps R (f e)) (e : Option Failure) :
    Keeps R (e.forM f) := by
  cases e with
  | none => exact .pure ()
  | some e => exact h e

theorem forM [Frame R] {f : β → Act PUnit} {xs : List β} (h : ∀ x ∈ xs, Keeps R (f x)) :
    Keeps R (xs.forM f) := by
  induction xs with
  | nil => exact .pure ()
  | cons x xs ih =>
    refine .bind (h x List.mem_cons_self) fun _ => ih fun y hy => ?_
    exact h y (List.mem_cons_of_mem _ hy)

end Keeps

end Act

/-! ### Growth -/

/-- The program that a journal entry tells of: the process that became it, and its arguments. -/
def Entry.image? : Entry → Option (Proc × List Text)
  | .entered p argv => some (p, argv)
  | _ => none

namespace World

/-- The programs entered so far, oldest first. -/
def images (w : World) : List (Proc × List Text) := w.journal.filterMap Entry.image?

/-- An open file that is what another one was; only its offset may differ. -/
def Stays (f f' : OpenFile) : Prop :=
  f'.target = f.target ∧ f'.writes = f.writes ∧ f'.atEnd = f.atEnd

/-- A world that another one can become. -/
structure Grows (w w' : World) : Prop where
  /-- Everything in the file tree stays. -/
  files : w.files.Grows w'.files
  /-- Open files stay what they are. -/
  opened : ∀ (i : Nat) f, w.opened[i]? = some f → ∃ f', w'.opened[i]? = some f' ∧ Stays f f'
  /-- Channels stay. -/
  channels : w.channels.length ≤ w'.channels.length
  /-- The threshold of the log stays. -/
  echoFrom : w'.echoFrom = w.echoFrom

theorem Stays.refl (f : OpenFile) : Stays f f := ⟨rfl, rfl, rfl⟩

theorem Stays.trans {f g h : OpenFile} (hfg : Stays f g) (hgh : Stays g h) : Stays f h :=
  ⟨hgh.1.trans hfg.1, hgh.2.1.trans hfg.2.1, hgh.2.2.trans hfg.2.2⟩

theorem Grows.refl (w : World) : w.Grows w :=
  ⟨.refl _, fun _ f h => ⟨f, h, .refl f⟩, Nat.le_refl _, rfl⟩

theorem Grows.trans {u v w : World} (huv : u.Grows v) (hvw : v.Grows w) : u.Grows w where
  files := huv.files.trans hvw.files
  opened i f h := by
    obtain ⟨g, hg, hfg⟩ := huv.opened i f h
    obtain ⟨k, hk, hgk⟩ := hvw.opened i g hg
    exact ⟨k, hk, hfg.trans hgk⟩
  channels := Nat.le_trans huv.channels hvw.channels
  echoFrom := hvw.echoFrom.trans huv.echoFrom

/-- Open files are never taken away. -/
theorem Grows.opened_le {w w' : World} (h : w.Grows w') : w.opened.length ≤ w'.opened.length := by
  refine Nat.le_of_not_lt fun hlt => ?_
  obtain ⟨f', hf', -⟩ := h.opened _ _ (List.getElem?_eq_getElem hlt)
  exact Nat.lt_irrefl _ (List.getElem?_eq_some_iff.1 hf').1

/-- A change of nothing but what grows. -/
theorem Grows.of_eq {w w' : World} (hf : w'.files = w.files) (ho : w'.opened = w.opened)
    (hc : w'.channels.length = w.channels.length) (he : w'.echoFrom = w.echoFrom) : w.Grows w' where
  files := hf ▸ .refl _
  opened i f h := ⟨f, by rw [ho, h], .refl f⟩
  channels := Nat.le_of_eq hc.symm
  echoFrom := he

/-- Another offset for an open file is growth. -/
theorem opened_set {w : World} {file : Nat} {f : OpenFile} (h : w.opened[file]? = some f)
    (offset : Nat) : ∀ (i : Nat) g, w.opened[i]? = some g →
      ∃ g', (w.opened.set file { f with offset := offset })[i]? = some g' ∧ Stays g g' := by
  intro i g hg
  by_cases hi : file = i
  · subst hi
    obtain rfl := Option.some.inj (h.symm.trans hg)
    have hlt : file < w.opened.length := (List.getElem?_eq_some_iff.1 h).1
    exact ⟨_, List.getElem?_set_self hlt, ⟨rfl, rfl, rfl⟩⟩
  · exact ⟨g, by rw [List.getElem?_set_ne hi, hg], .refl g⟩

/-- More open files are growth. -/
theorem opened_append (w : World) (fs : List OpenFile) : ∀ (i : Nat) f, w.opened[i]? = some f →
    ∃ f', (w.opened ++ fs)[i]? = some f' ∧ Stays f f' := by
  intro i f h
  have hlt : i < w.opened.length := (List.getElem?_eq_some_iff.1 h).1
  exact ⟨f, by rw [List.getElem?_append_left hlt, h], .refl f⟩

end World

/-! ### Plain happenings -/

/-- Whether a system call makes and ends no process, and leaves children and directory alone. Calls
that fail all do. -/
def Event.isPlain : Event → Bool
  | .getcwd (.error _) => true
  | .chdir _ (.error _) => true
  | .fork (.error _) => true
  | .wait _ (.error _) => true
  | .pipe _ => true
  | .dup _ _ _ => true
  | .close _ _ => true
  | .openFile _ _ _ => true
  | .restoreSignal => true
  | .exec _ _ _ => true
  | _ => false

/-- Whether a journal entry tells of a plain call, of bytes or of a record. -/
def Entry.isPlain : Entry → Bool
  | .called _ event => event.isPlain
  | .logged _ => true
  | .wrote _ _ _ _ => true
  | .took _ _ _ => true
  | _ => false

/-- A journal entry that tells of a record, or of bytes that a certain process gave or took. -/
def Entry.Utters (pid : Nat) : Entry → Prop
  | .logged _ => True
  | .wrote p _ _ _ => p = pid
  | .took p _ _ => p = pid
  | _ => False

theorem Entry.Utters.isPlain {pid : Nat} {e : Entry} (h : e.Utters pid) : e.isPlain = true := by
  cases e <;> first | rfl | exact h.elim

namespace World

/-- A world that another one becomes by plain calls, bytes and records alone. -/
structure Plain (w w' : World) : Prop where
  /-- It has grown. -/
  grows : w.Grows w'
  /-- No process was made. -/
  nextPid : w'.nextPid = w.nextPid
  /-- No process ended or was waited for. -/
  ended : w'.ended = w.ended
  /-- The plan is as it was. -/
  faults : w'.faults = w.faults
  /-- What the journal tells is plain. -/
  journal : ∃ es, w'.journal = w.journal ++ es ∧ ∀ e ∈ es, e.isPlain = true

/-- A world that another one becomes without the journal telling of it, and without a process being
made, ended or waited for. -/
structure Mute (w w' : World) : Prop where
  /-- It has grown. -/
  grows : w.Grows w'
  /-- No process was made. -/
  nextPid : w'.nextPid = w.nextPid
  /-- No process ended or was waited for. -/
  ended : w'.ended = w.ended
  /-- The plan is as it was. -/
  faults : w'.faults = w.faults
  /-- Nothing is told. -/
  journal : w'.journal = w.journal

theorem Mute.refl (w : World) : w.Mute w := ⟨.refl w, rfl, rfl, rfl, rfl⟩

theorem Mute.plain {w w' : World} (h : w.Mute w') : w.Plain w' :=
  ⟨h.grows, h.nextPid, h.ended, h.faults, [], by simp [h.journal], by simp⟩

namespace Plain

variable {u v w w' : World}

theorem refl (w : World) : w.Plain w := (Mute.refl w).plain

theorem trans (huv : u.Plain v) (hvw : v.Plain w) : u.Plain w := by
  refine ⟨huv.grows.trans hvw.grows, hvw.nextPid.trans huv.nextPid, hvw.ended.trans huv.ended,
    hvw.faults.trans huv.faults, ?_⟩
  obtain ⟨es, hes, hplain⟩ := huv.journal
  obtain ⟨fs, hfs, hplain'⟩ := hvw.journal
  refine ⟨es ++ fs, by rw [hfs, hes, List.append_assoc], fun e he => ?_⟩
  rcases List.mem_append.1 he with he | he
  · exact hplain e he
  · exact hplain' e he

theorem note (w : World) {e : Entry} (h : e.isPlain = true) : w.Plain (w.note e) :=
  ⟨.of_eq rfl rfl rfl rfl, rfl, rfl, rfl, [e], rfl, by simpa using h⟩

end Plain

/-- What becomes of the world where bytes are written through an open file, by what that file gives
access to. -/
inductive Wrote (w : World) (file : Nat) (f : OpenFile) (bs : Bytes) : World → Prop where
  /-- To the output that the shell was started with. -/
  | output (h : f.target = .output) : Wrote w file f bs { w with output := w.output ++ bs }
  /-- To the error output that it was started with. -/
  | errors (h : f.target = .errors) : Wrote w file f bs { w with errors := w.errors ++ bs }
  /-- To the null device, which keeps nothing. -/
  | null (h : f.target = .null) : Wrote w file f bs w
  /-- Into a channel. -/
  | channel {n : Nat} (h : f.target = .writeEnd n) :
      Wrote w file f bs { w with channels := w.channels.modify n (· ++ bs) }
  /-- Into a file, at its end or where the last write ended. -/
  | place {p : Place} {mode : Mode} {data : Bytes} {program : Option Program} {start : Nat}
      (h : f.target = .place p) (hnode : w.files.node? p = some (.file mode data program))
      (hstart : start = if f.atEnd then data.length else f.offset) :
      Wrote w file f bs { w with
        files := w.files.put p (.file mode (overwrite data start bs) program)
        opened := w.opened.set file { f with offset := start + bs.length } }

/-- A write succeeds where the open file is for writing and leads to something that takes bytes. -/
theorem write_eq_ok {w w' : World} {file : Nat} {bs : Bytes} :
    w.write file bs = .ok w' ↔
      ∃ f, w.opened[file]? = some f ∧ f.writes = true ∧ w.Wrote file f bs w' := by
  constructor
  · intro h
    unfold write at h
    split at h
    · simp at h
    next f hf =>
    split at h
    · simp at h
    next hwrites =>
    refine ⟨f, hf, by simpa using hwrites, ?_⟩
    split at h
    · next ht => exact Except.ok.inj h ▸ .output ht
    · next ht => exact Except.ok.inj h ▸ .errors ht
    · next ht => exact Except.ok.inj h ▸ .null ht
    · next ht => exact Except.ok.inj h ▸ .channel ht
    · next ht =>
      split at h
      · next hnode => exact Except.ok.inj h ▸ .place ht hnode rfl
      · simp at h
    · simp at h
    · simp at h
  · rintro ⟨f, hf, hwrites, h⟩
    unfold write
    rw [hf]
    cases h with
    | place ht hnode hstart => simp [hwrites, ht, hnode, hstart]
    | output ht => simp [hwrites, ht]
    | errors ht => simp [hwrites, ht]
    | null ht => simp [hwrites, ht]
    | channel ht => simp [hwrites, ht]

theorem write_spec {w w' : World} {file : Nat} {bs : Bytes} (h : w.write file bs = .ok w') :
    w.Mute w' := by
  obtain ⟨f, hf, -, hwrote⟩ := write_eq_ok.1 h
  cases hwrote with
  | output => exact ⟨.of_eq rfl rfl rfl rfl, rfl, rfl, rfl, rfl⟩
  | errors => exact ⟨.of_eq rfl rfl rfl rfl, rfl, rfl, rfl, rfl⟩
  | null => exact .refl _
  | channel => exact ⟨.of_eq rfl rfl (List.length_modify ..) rfl, rfl, rfl, rfl, rfl⟩
  | place _ hnode _ =>
    refine ⟨⟨FileTree.grows_put fun old hold => ?_, opened_set hf _, Nat.le_refl _, rfl⟩,
      rfl, rfl, rfl, rfl⟩
    obtain rfl := Option.some.inj (hnode.symm.trans hold)
    exact ⟨rfl, rfl⟩

/-- What is read through an open file, and what becomes of the world there, by what that file gives
access to. -/
inductive Took (w : World) (file : Nat) (f : OpenFile) (part : Bytes → Bytes) :
    Bytes → World → Prop where
  /-- From the input that the shell was started with. -/
  | input (h : f.target = .input) :
      Took w file f part (part w.input) { w with input := w.input.drop (part w.input).length }
  /-- From the null device, which holds nothing. -/
  | null (h : f.target = .null) : Took w file f part [] w
  /-- Out of a channel. -/
  | channel {n : Nat} {bs : Bytes} (h : f.target = .readEnd n)
      (hbs : bs = part (w.channels.getD n [])) :
      Took w file f part bs { w with channels := w.channels.modify n (·.drop bs.length) }
  /-- Out of a file, where the last read ended. -/
  | place {p : Place} {mode : Mode} {data : Bytes} {program : Option Program} {bs : Bytes}
      (h : f.target = .place p) (hnode : w.files.node? p = some (.file mode data program))
      (hbs : bs = part (data.drop f.offset)) :
      Took w file f part bs
        { w with opened := w.opened.set file { f with offset := f.offset + bs.length } }

/-- A read that succeeds is through an open file for reading, which leads to something that gives
bytes. -/
theorem read_eq_ok {w w' : World} {file : Nat} {part : Bytes → Bytes} {bs : Bytes}
    (h : w.read file part = .ok (bs, w')) :
    ∃ f, w.opened[file]? = some f ∧ f.writes = false ∧ w.Took file f part bs w' := by
  unfold read at h
  split at h
  · simp at h
  next f hf =>
  split at h
  · simp at h
  next hreads =>
  refine ⟨f, hf, by simpa using hreads, ?_⟩
  split at h
  · next ht =>
    obtain ⟨rfl, rfl⟩ := Prod.mk.inj (Except.ok.inj h)
    exact .input ht
  · next ht =>
    obtain ⟨rfl, rfl⟩ := Prod.mk.inj (Except.ok.inj h)
    exact .null ht
  · next ht =>
    obtain ⟨rfl, rfl⟩ := Prod.mk.inj (Except.ok.inj h)
    exact .channel ht rfl
  · next ht =>
    split at h
    · next hnode =>
      obtain ⟨rfl, rfl⟩ := Prod.mk.inj (Except.ok.inj h)
      exact .place ht hnode rfl
    · simp at h
  · simp at h
  · simp at h
  · simp at h

theorem read_spec {w w' : World} {file : Nat} {part : Bytes → Bytes} {bs : Bytes}
    (h : w.read file part = .ok (bs, w')) : w.Mute w' := by
  obtain ⟨f, hf, -, htook⟩ := read_eq_ok h
  cases htook with
  | input => exact ⟨.of_eq rfl rfl rfl rfl, rfl, rfl, rfl, rfl⟩
  | null => exact .refl _
  | channel => exact ⟨.of_eq rfl rfl (List.length_modify ..) rfl, rfl, rfl, rfl, rfl⟩
  | place => exact ⟨⟨.refl _, opened_set hf _, Nat.le_refl _, rfl⟩, rfl, rfl, rfl, rfl⟩

end World

namespace Machine

variable {m m' : Machine} {fd : Nat} {bs : Bytes}

/-- A write goes through the open file of its descriptor, and is told of. -/
theorem write_eq_ok {log : Bool} (h : m.write log fd bs = .ok m') :
    ∃ file w, m.proc.fds.get? fd = some file ∧ m.world.write file bs = .ok w ∧
      m' = { m with world := w.note (.wrote m.proc.pid file bs log) } := by
  unfold write at h
  split at h
  · simp at h
  next file hfile =>
  cases hw : m.world.write file bs with
  | error e => simp [hw, Except.map] at h
  | ok w =>
    rw [hw] at h
    exact ⟨file, w, hfile, hw, (Except.ok.inj h).symm⟩

/-- A read goes through the open file of its descriptor, and is told of. -/
theorem read_eq_ok {part : Bytes → Bytes} (h : m.read fd part = .ok (bs, m')) :
    ∃ file w, m.proc.fds.get? fd = some file ∧ m.world.read file part = .ok (bs, w) ∧
      m' = { m with world := w.note (.took m.proc.pid file bs) } := by
  unfold read at h
  split at h
  · simp at h
  next file hfile =>
  cases hr : m.world.read file part with
  | error e => simp [hr, Except.map] at h
  | ok r =>
    rw [hr] at h
    obtain ⟨rfl, rfl⟩ := Prod.mk.inj (Except.ok.inj h)
    exact ⟨file, r.2, hfile, hr, rfl⟩

end Machine

/-- The journal does not tell that a call is counted. -/
theorem World.Mute.counted (m : Machine) (c : CallName) : m.world.Mute (m.counted c).world :=
  ⟨.of_eq rfl rfl rfl rfl, rfl, rfl, rfl, rfl⟩

theorem World.Plain.counted (m : Machine) (c : CallName) : m.world.Plain (m.counted c).world :=
  (World.Mute.counted m c).plain

/-! ### What happens without a program being entered -/

/-- A world that has grown without a program being entered. -/
structure World.Still (w w' : World) : Prop where
  /-- It has grown. -/
  grows : w.Grows w'
  /-- No program was entered. -/
  images : w'.images = w.images

theorem World.Still.refl (w : World) : w.Still w := ⟨.refl w, rfl⟩

theorem World.Still.trans {u v w : World} (huv : u.Still v) (hvw : v.Still w) : u.Still w :=
  ⟨huv.grows.trans hvw.grows, hvw.images.trans huv.images⟩

/-- No program was entered. -/
def Still (m m' : Machine) : Prop := m.world.Still m'.world

/-- No program was entered, and the descriptors are as they were. -/
structure Calm (m m' : Machine) : Prop where
  /-- No program was entered. -/
  still : m.world.Still m'.world
  /-- The descriptors are as they were. -/
  fds : m'.proc.fds = m.proc.fds

/-- A process that is what another one is, but for what it counts and remembers. -/
structure Proc.Same (p q : Proc) : Prop where
  /-- Its number is the same. -/
  pid : q.pid = p.pid
  /-- Its descriptors are the same. -/
  fds : q.fds = p.fds
  /-- Its working directory is the same. -/
  cwd : q.cwd = p.cwd
  /-- Its variables are the same. -/
  table : q.table = p.table

theorem Proc.Same.refl (p : Proc) : p.Same p := ⟨rfl, rfl, rfl, rfl⟩

theorem Proc.Same.trans {p q r : Proc} (hpq : p.Same q) (hqr : q.Same r) : p.Same r :=
  ⟨hqr.pid.trans hpq.pid, hqr.fds.trans hpq.fds, hqr.cwd.trans hpq.cwd, hqr.table.trans hpq.table⟩

/-- What happened is plain, and the process is as it was but for what it counts and remembers. -/
structure Quiet (m m' : Machine) : Prop where
  /-- What happened is plain. -/
  plain : m.world.Plain m'.world
  /-- The process is as it was. -/
  same : m.proc.Same m'.proc

/-- What happened is plain, and descriptors may have changed, but not what paths and variables
depend on. -/
structure Rebound (m m' : Machine) : Prop where
  /-- What happened is plain. -/
  plain : m.world.Plain m'.world
  /-- The number is as it was. -/
  pid : m'.proc.pid = m.proc.pid
  /-- The variables are as they were. -/
  table : m'.proc.table = m.proc.table
  /-- The working directory is as it was. -/
  cwd : m'.proc.cwd = m.proc.cwd

/-- Nothing plain is the entry of a program. -/
theorem Entry.image?_of_isPlain {e : Entry} (h : e.isPlain = true) : e.image? = none := by
  cases e <;> first | rfl | simp [isPlain] at h

theorem World.Plain.still {w w' : World} (h : w.Plain w') : w.Still w' := by
  obtain ⟨es, hes, hplain⟩ := h.journal
  refine ⟨h.grows, ?_⟩
  have hnone : es.filterMap Entry.image? = [] :=
    List.filterMap_eq_nil_iff.2 fun e he => Entry.image?_of_isPlain (hplain e he)
  simp [images, hes, hnone]

/-- No program was entered. -/
theorem Rebound.still {m m' : Machine} (h : Rebound m m') : m.world.Still m'.world :=
  h.plain.still

instance : Act.Frame Still := ⟨fun m => .refl m.world, World.Still.trans⟩

instance : Act.Frame Calm where
  refl m := ⟨.refl m.world, rfl⟩
  trans hab hbc := ⟨hab.still.trans hbc.still, hbc.fds.trans hab.fds⟩

instance : Act.Frame Quiet where
  refl m := ⟨.refl m.world, .refl m.proc⟩
  trans hab hbc := ⟨hab.plain.trans hbc.plain, hab.same.trans hbc.same⟩

instance : Act.Frame Rebound where
  refl m := ⟨.refl m.world, rfl, rfl, rfl⟩
  trans hab hbc := ⟨hab.plain.trans hbc.plain, hbc.pid.trans hab.pid, hbc.table.trans hab.table,
    hbc.cwd.trans hab.cwd⟩

namespace Act

/-- A relation that is kept where something is logged. -/
class Logs (R : Machine → Machine → Prop) : Prop extends Frame R where
  /-- A record is logged. -/
  log (r : Record) : Keeps R (logRecord r)

/-- A relation that is kept where something is logged, and that does not see what the running process
counts and remembers. -/
class Tallies (R : Machine → Machine → Prop) : Prop extends Logs R where
  /-- Nothing but counts and memories have changed. -/
  same {m : Machine} {p : Proc} : m.proc.Same p → R m { m with proc := p }

/-- A relation that is kept where the running process makes itself heard on standard error, logs
something or has a call counted. -/
class Speaks (R : Machine → Machine → Prop) : Prop extends Frame R where
  /-- Bytes go to standard error. -/
  speak {m m' : Machine} {log : Bool} {bs : Bytes} : m.write log 2 bs = .ok m' → R m m'
  /-- A record is told of. -/
  logged (m : Machine) (r : Record) : R m (m.note (.logged r))
  /-- A call is counted. -/
  counted (m : Machine) (c : CallName) : R m (m.counted c)

/-- A relation that is kept where the running process moves bytes. -/
class Moves (R : Machine → Machine → Prop) : Prop extends Speaks R where
  /-- Bytes go to standard output or to standard error. -/
  write {m m' : Machine} {log : Bool} {fd : Nat} {bs : Bytes} :
    fd = 1 ∨ fd = 2 → m.write log fd bs = .ok m' → R m m'
  /-- Bytes come from a descriptor, from the beginning of what is left on. -/
  read {m m' : Machine} {fd : Nat} {part : Bytes → Bytes} {bs : Bytes} :
    (∀ left, part left <+: left) → m.read fd part = .ok (bs, m') → R m m'

/-- A relation that is kept where nothing is told, and where the running process tells of bytes or of
a record. -/
class Mild (R : Machine → Machine → Prop) : Prop extends Frame R where
  /-- Nothing is told. -/
  mute {m : Machine} {w : World} : m.world.Mute w → R m { m with world := w }
  /-- The running process tells of bytes, or of a record. -/
  utter {m : Machine} {e : Entry} : e.Utters m.proc.pid → R m (m.note e)

/-- A relation that is kept where the running process speaks, and that does not see what it counts
and remembers. -/
class Heedless (R : Machine → Machine → Prop) : Prop extends Speaks R where
  /-- Nothing but counts and memories have changed. -/
  same {m : Machine} {p : Proc} : m.proc.Same p → R m { m with proc := p }

/-- A relation that asks nothing of the world but that what happened is plain: whatever leaves
the running process as it is keeps it. -/
class Lenient (R : Machine → Machine → Prop) : Prop extends Frame R where
  /-- Nothing but the world has changed. -/
  plain {m : Machine} {w : World} : m.world.Plain w → R m { m with world := w }

/-- A relation that does not see what the running process counts and remembers. -/
class Forgetful (R : Machine → Machine → Prop) : Prop extends Lenient R where
  /-- Nothing but counts and memories have changed. -/
  same {m : Machine} {p : Proc} : m.proc.Same p → R m { m with proc := p }

instance (R : Machine → Machine → Prop) [Lenient R] : Mild R where
  mute h := Lenient.plain h.plain
  utter h := Lenient.plain (.note _ h.isPlain)

theorem Keeps.of_write {R : Machine → Machine → Prop} [Mild R] {m m' : Machine} {log : Bool}
    {fd : Nat} {bs : Bytes} (h : m.write log fd bs = .ok m') : R m m' := by
  obtain ⟨file, w, -, hw, rfl⟩ := Machine.write_eq_ok h
  have hmoved : R m { m with world := w } := Mild.mute (World.write_spec hw)
  have htold : R { m with world := w } _ := Mild.utter (e := .wrote m.proc.pid file bs log) rfl
  exact Frame.trans hmoved htold

theorem Keeps.of_read {R : Machine → Machine → Prop} [Mild R] {m m' : Machine} {fd : Nat}
    {part : Bytes → Bytes} {bs : Bytes} (h : m.read fd part = .ok (bs, m')) : R m m' := by
  obtain ⟨file, w, -, hr, rfl⟩ := Machine.read_eq_ok h
  have hmoved : R m { m with world := w } := Mild.mute (World.read_spec hr)
  have htold : R { m with world := w } _ := Mild.utter (e := .took m.proc.pid file bs) rfl
  exact Frame.trans hmoved htold

instance (R : Machine → Machine → Prop) [Mild R] : Moves R where
  speak := Keeps.of_write
  logged _ _ := Mild.utter True.intro
  counted m c := Mild.mute (.counted m c)
  write _ := Keeps.of_write
  read _ := Keeps.of_read

instance (R : Machine → Machine → Prop) [Forgetful R] : Heedless R := ⟨Forgetful.same⟩

/-- A text that is written keeps what its bytes keep. -/
theorem Keeps.writeText_of {R : Machine → Machine → Prop} [Frame R] {log : Bool} {fd : Nat}
    (h : ∀ {m m' : Machine} {bs : Bytes}, m.write log fd bs = .ok m' → R m m') (t : Text) :
    Keeps R (Act.writeText log fd t) := by
  intro m
  unfold after Act.writeText
  cases hw : m.write log fd (encode t) with
  | ok m' => exact h hw
  | error e => exact Frame.refl m

/-- To log keeps what it keeps to tell of a record, and to write for the log to standard error. -/
theorem Logs.of_echo {R : Machine → Machine → Prop} [Frame R]
    (hlogged : ∀ (m : Machine) r, R m (m.note (.logged r)))
    (hecho : ∀ {m m' : Machine} {bs : Bytes}, m.write true 2 bs = .ok m' → R m m') : Logs R where
  log r := by
    refine .bind (fun m => hlogged m r) fun _ => .bind .world fun w => ?_
    split
    · exact .bind (.attempt (.writeText_of hecho _)) fun _ => .pure ()
    · exact .pure ()

instance (R : Machine → Machine → Prop) [Speaks R] : Logs R := .of_echo Speaks.logged Speaks.speak

instance (R : Machine → Machine → Prop) [Heedless R] : Tallies R := ⟨Heedless.same⟩

/-- A relation that asks nothing of the world but that no program was entered: whatever leaves
the running process as it is keeps it. -/
class Kernel (R : Machine → Machine → Prop) : Prop extends Frame R where
  /-- Nothing but the world has changed. -/
  world {m : Machine} {w : World} : m.world.Still w → R m { m with world := w }

instance (R : Machine → Machine → Prop) [Kernel R] : Lenient R := ⟨fun h => Kernel.world h.still⟩

theorem Forgetful.quiet {R : Machine → Machine → Prop} [Forgetful R] {m m' : Machine}
    (h : Quiet m m') : R m m' := by
  have hsame : R m { m with proc := m'.proc } := Forgetful.same h.same
  exact Frame.trans hsame (Lenient.plain (m := { m with proc := m'.proc }) h.plain)

instance : Forgetful Quiet where
  plain h := ⟨h, .refl _⟩
  same h := ⟨.refl _, h⟩

instance : Forgetful Rebound where
  plain h := ⟨h, rfl, rfl, rfl⟩
  same h := ⟨.refl _, h.pid, h.table, h.cwd⟩

instance : Kernel Still := ⟨id⟩

instance : Kernel Calm := ⟨fun h => ⟨h, rfl⟩⟩

instance : Forgetful Still := ⟨fun _ => .refl _⟩

instance : Forgetful Calm := ⟨fun h => ⟨.refl _, h.fds⟩⟩

end Act

theorem World.grows_note (w : World) (e : Entry) : w.Grows (w.note e) := .of_eq rfl rfl rfl rfl

theorem World.still_note (w : World) {e : Entry} (h : e.image? = none) : w.Still (w.note e) :=
  ⟨w.grows_note e, by simp [images, note, h]⟩

/-! ### What is told of calls -/

section Telling

open Act

/-- What is left of making a child once its number is known. -/
def tellChild (pid : Nat) : Act Nat := do
  tally fun s => { s with fork := s.fork + 1 }
  debug launcher ("Forked child ".toList ++ natText pid)
  return pid

/-- What is left of making a channel once its ends are known. -/
def tellChannel : Nat × Nat → Act (Nat × Nat)
  | (readFd, writeFd) => do
    tally fun s => { s with pipe := s.pipe + 1 }
    debug launcher
      ("Created channel r=".toList ++ natText readFd ++ " w=".toList ++ natText writeFd)
    return (readFd, writeFd)

/-- What is left of waiting for a child once its raw wait status is known. -/
def tellEnd (pid raw : Nat) : Act Status := do
  let ending := Ending.ofRaw raw
  tally fun s => { s with wait := s.wait + 1 }
  match ending with
  | .exited code =>
    debug launcher ("Child ".toList ++ natText pid ++ " exited with ".toList ++ natText code)
  | .killed signal =>
    debug launcher
      ("Child ".toList ++ natText pid ++ " killed by signal ".toList ++ natText signal)
  | .stopped => pure ()
  return ending.status

theorem spawn_eq (work : Act ChildEnd) : spawn work = fork (childLife work) >>= tellChild := rfl

theorem createChannel_eq : createChannel = pipe >>= tellChannel := rfl

theorem await_eq (pid : Nat) : await pid = wait pid >>= tellEnd pid := rfl

theorem exists_tellChild (pid : Nat) (m : Machine) : ∃ m', tellChild pid m = .ok pid m' := by
  obtain ⟨_, m', hlog⟩ := Answers.debug launcher ("Forked child ".toList ++ natText pid)
    { m with proc.stats.fork := m.proc.stats.fork + 1 }
  exact ⟨m', bind_eq_ok.2 ⟨(), _, rfl, bind_eq_ok.2 ⟨(), m', hlog, rfl⟩⟩⟩

theorem exists_tellChannel (ends : Nat × Nat) (m : Machine) :
    ∃ m', tellChannel ends m = .ok ends m' := by
  obtain ⟨_, m', hlog⟩ := Answers.debug launcher
    ("Created channel r=".toList ++ natText ends.1 ++ " w=".toList ++ natText ends.2)
    { m with proc.stats.pipe := m.proc.stats.pipe + 1 }
  exact ⟨m', bind_eq_ok.2 ⟨(), _, rfl, bind_eq_ok.2 ⟨(), m', hlog, rfl⟩⟩⟩

theorem tellChannel_eq_ok {x y : Nat × Nat} {m m' : Machine} (h : tellChannel x m = .ok y m') :
    y = x := by
  obtain ⟨n, hn⟩ := exists_tellChannel x m
  exact (EStateM.Result.ok.inj (h.symm.trans hn)).1

theorem exists_tellEnd (pid raw : Nat) (m : Machine) :
    ∃ m', tellEnd pid raw m = .ok (Ending.ofRaw raw).status m' := by
  let told : Machine := { m with proc.stats.wait := m.proc.stats.wait + 1 }
  have hlogged (message : Text) (s : Status) :
      ∃ m', (do debug launcher message; return s) told = .ok s m' := by
    obtain ⟨_, m', hlog⟩ := Answers.debug launcher message told
    exact ⟨m', bind_eq_ok.2 ⟨(), m', hlog, rfl⟩⟩
  unfold tellEnd
  generalize Ending.ofRaw raw = ending
  cases ending with
  | exited code => exact hlogged _ _
  | killed signal => exact hlogged _ _
  | stopped => exact ⟨told, rfl⟩

end Telling

namespace Act.Keeps

section Logs

variable {R : Machine → Machine → Prop} [Logs R]

theorem logRecord (r : Record) : Keeps R (Act.logRecord r) := Logs.log r

theorem debug (logger message : Text) : Keeps R (Act.debug logger message) := logRecord _

theorem info (logger message : Text) : Keeps R (Act.info logger message) := logRecord _

theorem error (logger message : Text) (cause : Option Failure) :
    Keeps R (Act.error logger message cause) := logRecord _

end Logs

section Tallies

variable {R : Machine → Machine → Prop} [Tallies R]

theorem tally (f : Stats → Stats) : Keeps R (Act.tally f) :=
  fun _ => Tallies.same ⟨rfl, rfl, rfl, rfl⟩

theorem remember (s : Status) : Keeps R (LineShell.remember s) := by
  unfold LineShell.remember
  split
  · exact .bind (fun _ => Tallies.same ⟨rfl, rfl, rfl, rfl⟩) fun _ => .pure _
  · exact .bind (.pure _) fun _ => .pure _

/-- A child that was made is counted and logged. -/
theorem tellChild (pid : Nat) : Keeps R (LineShell.tellChild pid) :=
  .bind (.tally _) fun _ => .bind (.debug _ _) fun _ => .pure _

/-- A channel that was made is counted and logged. -/
theorem tellChannel (ends : Nat × Nat) : Keeps R (LineShell.tellChannel ends) :=
  .bind (.tally _) fun _ => .bind (.debug _ _) fun _ => .pure _

/-- The end of a child that was waited for is counted and logged. -/
theorem tellEnd (pid raw : Nat) : Keeps R (LineShell.tellEnd pid raw) := by
  refine .bind (.tally _) fun _ => ?_
  split
  · exact .bind (.debug _ _) fun _ => .pure _
  · exact .bind (.debug _ _) fun _ => .pure _
  · exact .bind (.pure _) fun _ => .pure _

theorem createChannel_of (h : Keeps R Act.pipe) : Keeps R LineShell.createChannel :=
  .bind h .tellChannel

theorem spawn_of {work : Act ChildEnd} (h : Keeps R (Act.fork (childLife work))) :
    Keeps R (LineShell.spawn work) :=
  .bind h .tellChild

theorem await_of {pid : Nat} (h : Keeps R (Act.wait pid)) : Keeps R (LineShell.await pid) :=
  .bind h (.tellEnd pid)

end Tallies

section Speaks

variable {R : Machine → Machine → Prop} [Speaks R] {α : Type}

/-- A call keeps what its work keeps together with its note, and what the note of its failure
keeps. -/
theorem call_of {c : CallName} {event : Except Errno α → Event}
    {work : Machine → Except Errno (α × Machine)}
    (hfail : ∀ (m : Machine) e, R m (m.note (.called m.proc.pid (event (.error e)))))
    (h : ∀ m x m', work m = .ok (x, m') → R m (m'.note (.called m.proc.pid (event (.ok x))))) :
    Keeps R (Act.call c event work) := by
  intro m
  have hcounted : R m (m.counted c) := Speaks.counted m c
  rcases call_cases c event work m with ⟨e, hc⟩ | ⟨x, next, hw, hc⟩
  · rw [after_of_ok hc]
    exact Frame.trans hcounted (hfail (m.counted c) e)
  · rw [after_of_ok hc]
    exact Frame.trans hcounted (h (m.counted c) x next hw)

theorem getcwd_of (hnote : ∀ (m : Machine) r, R m (m.note (.called m.proc.pid (.getcwd r)))) :
    Keeps R Act.getcwd := by
  refine .bind (.call_of (fun m e => hnote m (.error e)) fun m x m' h => ?_) fun x => .answer _ x
  obtain ⟨-, rfl⟩ := Prod.mk.inj (Except.ok.inj h)
  exact hnote m (.ok x)

theorem chdir_of {path : Text}
    (hnote : ∀ (m : Machine) r, R m (m.note (.called m.proc.pid (.chdir path r))))
    (hmove : ∀ (m : Machine) place, R m { m with proc.cwd := place }) :
    Keeps R (Act.chdir path) := by
  refine .bind (.refuseNul _) fun _ =>
    .bind (.call_of (fun m e => hnote m (.error e)) fun m x m' h => ?_) fun x => .answer _ x
  split at h
  · simp at h
  · split at h
    · split at h
      · obtain ⟨-, rfl⟩ := Prod.mk.inj (Except.ok.inj h)
        exact Frame.trans (hmove m _) (hnote _ (.ok x))
      · simp at h
    · simp at h

theorem pipe_of (hnote : ∀ (m : Machine) r, R m (m.note (.called m.proc.pid (.pipe r))))
    (hmake : ∀ (m : Machine) r w, R m { m with
      world.opened := m.world.opened ++ [⟨.readEnd m.world.channels.length, false, false, 0⟩,
        ⟨.writeEnd m.world.channels.length, true, false, 0⟩]
      world.channels := m.world.channels ++ [[]]
      proc.fds := (m.proc.fds.set r m.world.opened.length).set w (m.world.opened.length + 1) }) :
    Keeps R Act.pipe := by
  refine .bind (.call_of (fun m e => hnote m (.error e)) fun m x m' h => ?_) fun x => .answer _ x
  obtain ⟨-, rfl⟩ := Prod.mk.inj (Except.ok.inj h)
  exact Frame.trans (hmake m _ _) (hnote _ (.ok x))

theorem dup_of {source target : Nat}
    (hnote : ∀ (m : Machine) r, R m (m.note (.called m.proc.pid (.dup source target r))))
    (hset : ∀ (m : Machine) file, m.proc.fds.get? source = some file →
      R m { m with proc.fds := m.proc.fds.set target file }) : Keeps R (Act.dup source target) := by
  refine .bind (.call_of (fun m e => hnote m (.error e)) fun m x m' h => ?_) fun x => .answer _ x
  split at h
  · next hfile =>
    obtain ⟨-, rfl⟩ := Prod.mk.inj (Except.ok.inj h)
    exact Frame.trans (hset m _ hfile) (hnote _ (.ok x))
  · simp at h

theorem close_of {fd : Nat}
    (hnote : ∀ (m : Machine) r, R m (m.note (.called m.proc.pid (.close fd r))))
    (herase : ∀ m : Machine, R m { m with proc.fds := m.proc.fds.erase fd }) :
    Keeps R (Act.close fd) := by
  refine .bind (.call_of (fun m e => hnote m (.error e)) fun m x m' h => ?_) fun x => .answer _ x
  split at h
  · obtain ⟨-, rfl⟩ := Prod.mk.inj (Except.ok.inj h)
    exact Frame.trans (herase m) (hnote _ (.ok x))
  · simp at h

theorem wait_of {pid : Nat}
    (hnote : ∀ (m : Machine) r, R m (m.note (.called m.proc.pid (.wait pid r))))
    (hreap : ∀ (m : Machine) ended, R m { m with world.ended := ended }) :
    Keeps R (Act.wait pid) := by
  refine .bind (.call_of (fun m e => hnote m (.error e)) fun m x m' h => ?_) fun x => .answer _ x
  split at h
  · obtain ⟨-, rfl⟩ := Prod.mk.inj (Except.ok.inj h)
    exact Frame.trans (hreap m _) (hnote _ (.ok _))
  · simp at h

theorem report (message : Text) : Keeps R (Act.report message) := .writeText_of Speaks.speak _

theorem reportFork (logger what : Text) (failure : Failure) :
    Keeps R (LineShell.reportFork logger what failure) := by
  unfold LineShell.reportFork
  split
  · exact .bind (.error _ _ _) fun _ => .report _
  · exact .throw _

end Speaks

/-- A plain call keeps what its work keeps. -/
theorem call_plain {R : Machine → Machine → Prop} [Lenient R] {α : Type} {c : CallName}
    {event : Except Errno α → Event} {work : Machine → Except Errno (α × Machine)}
    (hplain : ∀ r, (event r).isPlain = true) (h : ∀ m x m', work m = .ok (x, m') → R m m') :
    Keeps R (Act.call c event work) :=
  .call_of (fun m e => Lenient.plain (.note m.world (hplain (.error e)))) fun m x m' hw =>
    Frame.trans (h m x m' hw) (Lenient.plain (.note m'.world (hplain (.ok x))))

section Kernel

variable {R : Machine → Machine → Prop} [Kernel R] {α : Type}

theorem note {e : Entry} (h : e.image? = none) : Keeps R (Act.note e) :=
  fun m => Kernel.world (m.world.still_note h)

theorem called (e : Event) : Keeps R (Act.called e) :=
  fun m => Kernel.world (m.world.still_note rfl)

theorem call {c : CallName} {event : Except Errno α → Event}
    {work : Machine → Except Errno (α × Machine)}
    (h : ∀ m x m', work m = .ok (x, m') → R m m') : Keeps R (Act.call c event work) :=
  .call_of (fun m _ => Kernel.world (m.world.still_note rfl)) fun m x m' hw =>
    Frame.trans (h m x m' hw) (Kernel.world (m'.world.still_note rfl))

theorem getcwd : Keeps R Act.getcwd :=
  .getcwd_of fun m _ => Kernel.world (m.world.still_note rfl)

theorem wait (pid : Nat) : Keeps R (Act.wait pid) :=
  .wait_of (fun m _ => Kernel.world (m.world.still_note rfl)) fun _ _ =>
    Kernel.world ⟨.of_eq rfl rfl rfl rfl, rfl⟩

end Kernel

/-! ### Calls on descriptors -/

theorem pipe : Keeps Rebound Act.pipe := by
  refine .pipe_of (fun _ _ => Lenient.plain (.note _ rfl)) fun m r w => ?_
  refine ⟨World.Mute.plain ⟨⟨.refl _, ?_, ?_, rfl⟩, rfl, rfl, rfl, rfl⟩, rfl, rfl, rfl⟩
  · exact m.world.opened_append _
  · simp only [List.length_append]
    omega

theorem dup (source target : Nat) : Keeps Rebound (Act.dup source target) :=
  .dup_of (fun _ _ => Lenient.plain (.note _ rfl)) fun m _ _ => ⟨.refl m.world, rfl, rfl, rfl⟩

theorem close (fd : Nat) : Keeps Rebound (Act.close fd) :=
  .close_of (fun _ _ => Lenient.plain (.note _ rfl)) fun m => ⟨.refl m.world, rfl, rfl, rfl⟩

theorem openFile (path : Text) (mode : OpenMode) : Keeps Rebound (Act.openFile path mode) := by
  refine .bind (.refuseNul _) fun _ =>
    .bind (.call_plain (fun _ => rfl) fun m x m' h => ?_) fun x => .answer _ x
  split at h
  · simp at h
  next hl =>
  split at h
  · simp at h
  next ha =>
  obtain ⟨-, rfl⟩ := Prod.mk.inj (Except.ok.inj h)
  have hg := (locate_spec hl).1.trans (access_spec ha).1
  refine ⟨World.Mute.plain ⟨⟨hg, ?_, Nat.le_refl _, rfl⟩, rfl, rfl, rfl, rfl⟩, rfl, rfl, rfl⟩
  exact m.world.opened_append _

theorem closeAll (fds : List Nat) : Keeps Rebound (LineShell.closeAll fds) :=
  .forM fun fd _ => close fd

theorem bindStream (fd standard : Nat) (spare : List Nat) :
    Keeps Rebound (LineShell.bindStream fd standard spare) :=
  .bind (.dup _ _) fun _ => .closeAll _

theorem createChannel : Keeps Rebound LineShell.createChannel := .createChannel_of .pipe

end Act.Keeps

/-! ### What calls on descriptors do -/

namespace Act

variable {α : Type} {m m' : Machine}

/-- What is not refused changes nothing. -/
theorem refuse_eq_ok {e : Option Failure} (h : refuse e m = .ok () m') : e = none ∧ m' = m := by
  cases e with
  | none => exact ⟨rfl, (EStateM.Result.ok.inj h).2.symm⟩
  | some e => exact nomatch (h : EStateM.Result.error e m = _)

/-- An answered call did its work. -/
theorem answered_eq_ok {path : Option Text} {c : CallName} {event : Except Errno α → Event}
    {work : Machine → Except Errno (α × Machine)} {x : α}
    (h : (do answer path (← call c event work)) m = .ok x m') :
    ∃ next, work (m.counted c) = .ok (x, next) ∧
      m' = next.note (.called m.proc.pid (event (.ok x))) := by
  obtain ⟨r, m₁, hc, ha⟩ := bind_eq_ok.1 h
  rcases call_cases c event work m with ⟨e, hc'⟩ | ⟨y, next, hw, hc'⟩
  · obtain ⟨rfl, rfl⟩ := EStateM.Result.ok.inj (hc.symm.trans hc')
    exact nomatch (ha : EStateM.Result.error _ _ = _)
  · obtain ⟨rfl, rfl⟩ := EStateM.Result.ok.inj (hc.symm.trans hc')
    obtain ⟨rfl, rfl⟩ := EStateM.Result.ok.inj (ha : EStateM.Result.ok y _ = _)
    exact ⟨next, hw, rfl⟩

/-- A call that fails is counted and noted, and nothing else. -/
theorem answered_eq_error {path : Option Text} {c : CallName} {event : Except Errno α → Event}
    {work : Machine → Except Errno (α × Machine)} {e : Failure}
    (h : (do answer path (← call c event work)) m = .error e m') :
    ∃ errno, m' = (m.counted c).note (.called m.proc.pid (event (.error errno))) := by
  rw [bind_eq] at h
  rcases call_cases c event work m with ⟨errno, hc⟩ | ⟨y, next, hw, hc⟩
  · rw [hc] at h
    obtain ⟨-, rfl⟩ := EStateM.Result.error.inj (h : EStateM.Result.error _ _ = _)
    exact ⟨errno, rfl⟩
  · rw [hc] at h
    exact nomatch (h : EStateM.Result.ok y _ = _)

theorem pipe_eq_ok {r w : Nat} (h : pipe m = .ok (r, w) m') :
    r = m.proc.fds.free ∧ w = (m.proc.fds.set r m.world.opened.length).free ∧
      m'.proc.fds = (m.proc.fds.set r m.world.opened.length).set w (m.world.opened.length + 1) ∧
      m'.world.opened = m.world.opened ++ [⟨.readEnd m.world.channels.length, false, false, 0⟩,
        ⟨.writeEnd m.world.channels.length, true, false, 0⟩] ∧
      m'.world.channels = m.world.channels ++ [[]] ∧
      m'.world.journal = m.world.journal ++ [.called m.proc.pid (.pipe (.ok (r, w)))] := by
  obtain ⟨next, hw, rfl⟩ := answered_eq_ok h
  obtain ⟨hx, rfl⟩ := Prod.mk.inj (Except.ok.inj hw)
  obtain ⟨rfl, rfl⟩ := Prod.mk.inj hx
  exact ⟨rfl, rfl, rfl, rfl, rfl, rfl⟩

theorem dup_eq_ok {source target : Nat} (h : dup source target m = .ok () m') :
    ∃ file, m.proc.fds.get? source = some file ∧ m'.proc.fds = m.proc.fds.set target file := by
  obtain ⟨next, hw, rfl⟩ := answered_eq_ok h
  split at hw
  · next file hf =>
    obtain ⟨-, rfl⟩ := Prod.mk.inj (Except.ok.inj hw)
    exact ⟨file, hf, rfl⟩
  · simp at hw

theorem close_eq_ok {fd : Nat} (h : close fd m = .ok () m') :
    m'.proc.fds = m.proc.fds.erase fd := by
  obtain ⟨next, hw, rfl⟩ := answered_eq_ok h
  split at hw
  · obtain ⟨-, rfl⟩ := Prod.mk.inj (Except.ok.inj hw)
    rfl
  · simp at hw

end Act

/-- An open file that gives access to what a path names, as a mode says. -/
def World.Opens (w : World) (cwd : Place) (path : Text) (mode : OpenMode) (file : Nat) : Prop :=
  ∃ f, w.opened[file]? = some f ∧ f.target.IsAt w.files cwd path ∧
    f.writes = decide (mode ≠ .read) ∧ f.atEnd = decide (mode = .append)

theorem World.Opens.of_grows {w w' : World} {cwd : Place} {path : Text} {mode : OpenMode}
    {file : Nat} (h : w.Opens cwd path mode file) (hg : w.Grows w') :
    w'.Opens cwd path mode file := by
  obtain ⟨f, hf, ht, hw, he⟩ := h
  obtain ⟨f', hf', htarget, hwrites, hend⟩ := hg.opened file f hf
  exact ⟨f', hf', htarget ▸ ht.of_grows hg.files, hwrites.trans hw, hend.trans he⟩

namespace Act

theorem openFile_eq_ok {m m' : Machine} {path : Text} {mode : OpenMode} {fd : Nat}
    (h : openFile path mode m = .ok fd m') :
    fd = m.proc.fds.free ∧ m'.proc.fds = m.proc.fds.set fd m.world.opened.length ∧
      m'.world.Opens m.proc.cwd path mode m.world.opened.length := by
  obtain ⟨_, m₁, hr, hc⟩ := bind_eq_ok.1 h
  obtain ⟨-, rfl⟩ := refuse_eq_ok hr
  obtain ⟨next, hw, rfl⟩ := answered_eq_ok hc
  split at hw
  · simp at hw
  next place files hl =>
  split at hw
  · simp at hw
  next target files' ha =>
  obtain ⟨rfl, rfl⟩ := Prod.mk.inj (Except.ok.inj hw)
  refine ⟨rfl, rfl, ⟨target, mode ≠ .read, mode = .append, 0⟩, ?_, ?_, ?_, ?_⟩
  · exact (List.getElem?_append_right (Nat.le_refl _)).trans (by simp)
  · obtain ⟨-, hresolve⟩ := locate_spec hl
    obtain ⟨hg, htarget⟩ := access_spec ha
    exact ⟨place, hg.resolve hresolve, htarget⟩
  · rfl
  · rfl

end Act

/-! ### What serial operators do -/

section Serial

open Act

/-- Whether the sides of an operator run in children. -/
def Operator.forks : Operator → Bool
  | .pipe => true
  | .parallel => true
  | _ => false

/-- Whether a serial operator has its right side run after a left one that ended with a number. -/
def Operator.admits (op : Operator) (n : Int) : Bool :=
  match op with
  | .conditionalAnd => n = 0
  | .conditionalOr => n ≠ 0
  | _ => true

/-- What a serial operator does instead of its right side: it passes on the number of the left
one, which the log tells. -/
def Operator.pass : Operator → Int → Act Status
  | .conditionalAnd, n => do
    debug Operator.conditionalAnd.logger
      ("Left side failed (".toList ++ intText n ++ "), skipping right side".toList)
    return .code n
  | .conditionalOr, _ => do
    debug Operator.conditionalOr.logger "Left side succeeded, skipping right side".toList
    return .success
  | _, n => return .code n

theorem combine_of_serial {op : Operator} (h : op.forks = false) (a b : Act Status) :
    combine op a b = a >>= fun s =>
      match s with
      | .terminate => return .terminate
      | .code n => if op.admits n then b else op.pass n := by
  cases op with
  | sequential => rfl
  | conditionalAnd =>
    refine congrArg (a >>= ·) (funext fun s => ?_)
    cases s with
    | terminate => rfl
    | code n =>
      by_cases hn : n = 0
      · exact (if_pos hn).trans (if_pos (decide_eq_true hn)).symm
      · exact (if_neg hn).trans (if_neg (mt of_decide_eq_true hn)).symm
  | conditionalOr =>
    refine congrArg (a >>= ·) (funext fun s => ?_)
    cases s with
    | terminate => rfl
    | code n =>
      by_cases hn : n ≠ 0
      · exact (if_pos hn).trans (if_pos (decide_eq_true hn)).symm
      · exact (if_neg hn).trans (if_neg (mt of_decide_eq_true hn)).symm
  | pipe => simp [Operator.forks] at h
  | parallel => simp [Operator.forks] at h

/-- The number that is passed on is the one that was there. -/
theorem Operator.pass_of_skip {op : Operator} {n : Int} (h : op.admits n = false) :
    ∃ logger message, op.pass n = do
      debug logger message
      return .code n := by
  cases op with
  | conditionalAnd => exact ⟨_, _, rfl⟩
  | conditionalOr =>
    obtain rfl : n = 0 := by simpa [admits] using h
    exact ⟨_, _, rfl⟩
  | sequential => exact nomatch h
  | pipe => exact nomatch h
  | parallel => exact nomatch h

/-- Where a right side is skipped, nothing but a record is made. -/
theorem Act.Keeps.pass {R : Machine → Machine → Prop} [Logs R] {op : Operator} {n : Int}
    (h : op.admits n = false) : Keeps R (op.pass n) := by
  obtain ⟨logger, message, hpass⟩ := Operator.pass_of_skip h
  rw [hpass]
  exact .bind (.debug _ _) fun _ => .pure _

end Serial

end LineShell
