import LineShell.Proofs.Searching

/-!
# What comes of a command

A command that runs as a child opens the targets of its redirects, in the order input, output,
errors, up to the first one that cannot be opened, and then becomes its program. Whatever goes
wrong, the user reads at most one line. It goes where standard error led before if a target could
not be opened, and where the redirects lead standard error if it was the program. The status is
told by what went wrong, or else by how the program ended.

## The model

* `Entry.notable?` picks from the journal what is not routine: openings, programs, and bytes that
  are not for the log. What is said of a run is said of these entries in their order.
* `Command.targets` is what a command opens. `Tried` is what the journal tells of openings in
  their order up to the first that fails, and what comes of that.
* `Supplies` is the frame in which files that are opened for writing take what is written to them.
* `Command.ErrorsTo` says where standard error leads once the redirects are made.
* `Turned` and `Comes` list what comes of a process that is to become a program and of a command
  that runs as a child: the status, and what is notable.

## What is proved

* Bindings try their files in order; where one cannot be opened, a standard stream that only the
  last binding is for is as it was (`bindAll_tried`). That stream is standard error
  (`Command.errors_last`), which is why the user reads of a failed target where standard error led
  before.
* What is opened for writing can be written to (`openFile_supplies`), so a command whose redirects
  are made can tell the user of a failure if it could before (`applyRedirects_tells`).
* A process that is to become a program is refused, or the program is entered, gives and takes
  bytes, and ends (`exec_of_fit`, `runProgram_turned`).
* So each way in which a command can come out is a constructor of `Comes`, for the child
  (`runChild_comes`) and, as the main result, for the command.

## What is left out

Calls other than openings and programs are taken not to fail, and standard error to be open. What
a program writes is left to the program: its bytes are told of, whatever they are.
-/

namespace LineShell

open Act

/-! ### What is notable -/

/-- A journal entry that is not routine: of an opening, of a program, or of bytes that are not for the
log. -/
def Entry.notable? (e : Entry) : Option Entry := if e.isRoutine then none else some e

instance : Overlooks Entry.notable? where
  routine {e} h := by rw [Entry.notable?, if_pos h]

theorem Shows.notable {m m' : Machine} {e : Entry} (he : e.isRoutine = false)
    (h : m'.world.journal = m.world.journal ++ [e]) : Shows Entry.notable? [e] m m' := by
  have hshows : Shows Entry.notable? e.notable?.toList m m' := .of_append h
  rwa [Entry.notable?, he] at hshows

/-! ### The targets of a command -/

/-- What a command opens: its input, its output, and its errors unless their text is that of the
output. -/
def Command.targets (c : Command) (table : Table) : List (Text × OpenMode) :=
  (c.input.map fun w => (w.expand table, .read)).toList
    ++ (c.output.map fun r => (r.target.expand table, r.mode)).toList
    ++ match c.errors with
      | none => []
      | some e =>
        if c.output.map (·.target.expand table) = some (e.target.expand table) then []
        else [(e.target.expand table, e.mode)]

/-- The bindings of a command open its targets. -/
theorem Command.bindings_targets (c : Command) (table : Table) :
    (c.bindings table).map (fun b => (b.path, b.mode)) = c.targets table := by
  obtain ⟨verb, args, input, output, errors⟩ := c
  have hinput : ((input.map fun w => (⟨w.expand table, .read, [0]⟩ : Binding)).toList).map
      (fun b => (b.path, b.mode)) = (input.map fun w => (w.expand table, OpenMode.read)).toList := by
    cases input <;> rfl
  unfold bindings targets
  rw [List.map_append, hinput, List.append_assoc]
  congr 1
  rcases output with _ | r <;> rcases errors with _ | e
  · rfl
  · rfl
  · rfl
  · by_cases heq : r.target.expand table = e.target.expand table
    · simp [heq]
    · simp [heq]

/-- Only the last binding is for standard error. -/
theorem Command.errors_last (c : Command) (table : Table) :
    ∀ b ∈ (c.bindings table).dropLast, 2 ∉ b.streams := by
  obtain ⟨verb, args, input, output, errors⟩ := c
  rcases input with _ | w <;> rcases output with _ | r <;> rcases errors with _ | e
  case none.some.some | some.some.some =>
    by_cases heq : r.target.expand table = e.target.expand table
    · simp [bindings, heq]
    · simp [bindings, heq]
  all_goals simp [bindings]

/-! ### Openings -/

/-- Targets are opened in their order, up to the first one that cannot be: what the journal tells of it,
and what comes of it. -/
inductive Tried (pid : Nat) : List (Text × OpenMode) → List Entry → Except Failure Unit → Prop where
  /-- All are opened. -/
  | done : Tried pid [] [] (.ok ())
  /-- A path holds a NUL. -/
  | illegible {path : Text} {mode : OpenMode} {ts : List (Text × OpenMode)} (h : hasNul path = true) :
      Tried pid ((path, mode) :: ts) [] (.error .embeddedNull)
  /-- One cannot be opened. -/
  | refused {path : Text} {mode : OpenMode} {ts : List (Text × OpenMode)} (h : hasNul path = false)
      (e : Errno) : Tried pid ((path, mode) :: ts) [.called pid (.openFile path mode (.error e))]
        (.error (.system e (some path)))
  /-- One is opened, and the others are tried. -/
  | opened {path : Text} {mode : OpenMode} {ts : List (Text × OpenMode)} {es : List Entry}
      {r : Except Failure Unit} (h : hasNul path = false) (fd : Nat) (hrest : Tried pid ts es r) :
      Tried pid ((path, mode) :: ts) (.called pid (.openFile path mode (.ok fd)) :: es) r

/-- The machine once a file could not be opened. -/
def Machine.unopened (m : Machine) (path : Text) (mode : OpenMode) (e : Errno) : Machine :=
  (m.counted .openFile).note (.called m.proc.pid (.openFile path mode (.error e)))

/-- What an opening can come to. -/
theorem openFile_cases (path : Text) (mode : OpenMode) (m : Machine) :
    (hasNul path = true ∧ openFile path mode m = .error .embeddedNull m) ∨
    hasNul path = false ∧
      ((∃ e, openFile path mode m = .error (.system e (some path)) (m.unopened path mode e)) ∨
        ∃ fd m', openFile path mode m = .ok fd m') := by
  unfold openFile refuseNul
  cases hasNul path with
  | true => exact Or.inl ⟨rfl, rfl⟩
  | false =>
    refine Or.inr ⟨rfl, ?_⟩
    show (∃ e, (call .openFile _ _ >>= answer _) m = _) ∨ ∃ fd m', (call .openFile _ _ >>= answer _) m = _
    rw [bind_eq]
    rcases call_cases .openFile (.openFile path mode) _ m with ⟨e, hc⟩ | ⟨fd, next, -, hc⟩
    · rw [hc]
      exact Or.inl ⟨e, rfl⟩
    · rw [hc]
      exact Or.inr ⟨fd, _, rfl⟩

section Openings

variable {opened : List Nat} {bs : List Binding} {b : Binding} {m m₁ : Machine}

theorem Act.Blames.closeOpened (opened : List Nat) : Blames (LineShell.closeOpened opened) :=
  .closeAll _

theorem Act.Blames.forM_dup (fd : Nat) (streams : List Nat) : Blames (streams.forM (Act.dup fd)) :=
  .forM (.dup fd) (fun target => (Keeps.dup fd target).recorded) streams

theorem closeOpened_get? {k : Machine} (h : closeOpened opened m = .ok () k) {x : Nat} (hx : x ≤ 2) :
    k.proc.fds.get? x = m.proc.fds.get? x := by
  rw [closeAll_eq_ok h, if_neg (by simp; omega)]

/-- Where the first of some files cannot be opened, what was opened before is closed, and the standard
streams are left as they are. -/
theorem bindAll_cons_of_error {e : Failure} (h : openFile b.path b.mode m = .error e m₁)
    (hrecorded : Recorded m m₁)
    (hfree : ∀ x ∈ m.since ((bindAll opened (b :: bs)).after m), ¬x.Hinders) :
    ∃ k, attempt (bindAll opened (b :: bs)) m = .ok (.error e) k ∧ Shows Entry.notable? [] m₁ k ∧
      ∀ x ≤ 2, k.proc.fds.get? x = m₁.proc.fds.get? x := by
  have hrun : bindAll opened (b :: bs) m = (do closeOpened opened; throw e) m₁ := by
    show (attempt (openFile b.path b.mode) >>= _) m = _
    rw [bind_eq, attempt_of_error h]
  have hrest : Recorded ((closeOpened opened).after m₁) ((bindAll opened (b :: bs)).after m) :=
    after_eq_of_eq hrun ▸ Keeps.rest (fun _ => .throw e) m₁
  obtain ⟨_, k, hclose⟩ := (Blames.closeOpened opened).exists_ok (m := m₁) fun x hx =>
    hfree x (hrecorded.mem_rest (hrest.mem_first hx))
  refine ⟨k, attempt_of_error ?_, (closeAll_unseen _).of_ok hclose, fun x => closeOpened_get? hclose⟩
  rw [hrun, bind_eq, hclose]
  rfl

/-- Where the first of some files is opened, its streams are bound. -/
theorem bindAll_cons_of_opened {fd : Nat} (h : openFile b.path b.mode m = .ok fd m₁)
    (hfree : ∀ x ∈ m.since ((bindAll opened (b :: bs)).after m), ¬x.Hinders) :
    ∃ m₂, b.streams.forM (dup fd) m₁ = .ok () m₂ := by
  have hrecorded : Recorded m m₁ := (Keeps.openFile _ _).recorded.of_ok h
  cases hdups : b.streams.forM (dup fd) m₁ with
  | ok _ m₂ => exact ⟨m₂, rfl⟩
  | error e m₂ =>
    have hrun : bindAll opened (b :: bs) m = (do closeOpened (opened ++ [fd]); throw e) m₂ := by
      show (attempt (openFile b.path b.mode) >>= _) m = _
      rw [bind_eq, attempt_of_ok h]
      show (attempt (b.streams.forM (dup fd)) >>= _) m₁ = _
      rw [bind_eq, attempt_of_error hdups]
    have hrest : Recorded m₂ ((bindAll opened (b :: bs)).after m) :=
      after_eq_of_eq hrun ▸ Keeps.bind (Keeps.closeAll _).recorded (fun _ => .throw e) m₂
    obtain ⟨x, hx, hhinders⟩ := Blames.forM_dup fd b.streams m₁ e m₂ hdups
    exact absurd hhinders (hfree x (hrecorded.mem_rest (hrest.mem_first hx)))

/-- Bindings try their files in order. Where one of these cannot be opened, a standard stream that only the
last binding is for is as it was. -/
theorem bindAll_tried (hfree : ∀ x ∈ m.since ((bindAll opened bs).after m), ¬x.Hinders) :
    ∃ r es k, attempt (bindAll opened bs) m = .ok r k ∧
      Tried m.proc.pid (bs.map fun b => (b.path, b.mode)) es r ∧ Shows Entry.notable? es m k ∧
      ∀ e, r = .error e → ∀ x ≤ 2, (∀ b ∈ bs.dropLast, x ∉ b.streams) → m.proc.fds.get? x ≠ none →
        k.proc.fds.get? x = m.proc.fds.get? x := by
  induction bs generalizing opened m with
  | nil =>
    obtain ⟨_, k, hclose⟩ := (Blames.closeOpened opened).exists_ok hfree
    exact ⟨.ok (), [], k, attempt_of_ok hclose, .done, (closeAll_unseen _).of_ok hclose, nofun⟩
  | cons b bs ih =>
    rcases openFile_cases b.path b.mode m with ⟨hnul, herror⟩ | ⟨hnul, ⟨e, herror⟩ | ⟨fd, m₁, hok⟩⟩
    · obtain ⟨k, hrun, hshows, hkept⟩ := bindAll_cons_of_error herror (Frame.refl m) hfree
      exact ⟨_, [], k, hrun, .illegible hnul, hshows, fun _ _ x hx _ _ => hkept x hx⟩
    · obtain ⟨k, hrun, hshows, hkept⟩ := bindAll_cons_of_error herror ⟨[_], rfl⟩ hfree
      have htold : Shows Entry.notable? [_] m (m.unopened b.path b.mode e) := .notable rfl rfl
      exact ⟨_, _, k, hrun, .refused hnul e, htold.trans hshows, fun _ _ x hx _ _ => hkept x hx⟩
    · obtain ⟨m₂, hdups⟩ := bindAll_cons_of_opened hok hfree
      have hrest : bindAll opened (b :: bs) m = bindAll (opened ++ [fd]) bs m₂ :=
        bindAll_cons_of_ok hok hdups
      have hdup : Keeps Rebound (b.streams.forM (dup fd)) := .forM fun s _ => .dup fd s
      have hrebound : Rebound m m₂ :=
        Frame.trans ((Keeps.openFile b.path b.mode).of_ok hok) (hdup.of_ok hdups)
      rw [after_eq_of_eq hrest] at hfree
      obtain ⟨r, es, k, hrun, htried, hshows, hkept⟩ := ih fun x hx =>
        hfree x (Recorded.mem_rest hrebound.followed.journal hx)
      have htold : Shows Entry.notable? [_] m m₁ := .notable rfl (openFile_journal hok)
      have hmade : Shows Entry.notable? [] m₁ m₂ := (forM_dup_unseen _ _).of_ok hdups
      refine ⟨r, _, k, ?_, .opened hnul fd (hrebound.pid ▸ htried), htold.trans (hmade.trans hshows),
        fun e he x hx hlast hold => ?_⟩
      · unfold attempt at hrun ⊢
        rwa [hrest]
      · -- the last binding leaves nothing to be tried, so this one is not the last
        subst he
        obtain ⟨b', bs, rfl⟩ := List.exists_cons_of_ne_nil (l := bs) (by rintro rfl; exact nomatch htried)
        obtain ⟨hx', hlast'⟩ := List.forall_mem_cons.1 hlast
        obtain ⟨old, hold'⟩ := Option.ne_none_iff_exists'.1 hold
        obtain ⟨rfl, hfds, -⟩ := openFile_eq_ok hok
        have hsame : m₂.proc.fds.get? x = m.proc.fds.get? x := by
          rw [forM_dup_eq_ok (by rw [hfds, Descriptors.get?_set_self]) hdups, if_neg hx', hfds,
            Descriptors.get?_set_of_ne _ _ (Descriptors.ne_free_of_get? hold')]
        rw [hkept e rfl x hx hlast' (hsame ▸ hold), hsame]

end Openings

/-! ### Files that are opened for writing -/

/-- The world grows, and what is opened for writing takes what is written to it. -/
structure Supplies (m m' : Machine) : Prop where
  /-- The world grows. -/
  grows : m.world.Grows m'.world
  /-- What is new and open for writing takes bytes. -/
  takes : ∀ (i : Nat) f, m'.world.opened[i]? = some f → m.world.opened.length ≤ i → f.writes = true →
    m'.world.Takes i

namespace Supplies

/-- Where no file is opened nothing is new. -/
theorem of_length {m m' : Machine} (hgrows : m.world.Grows m'.world)
    (hlength : m'.world.opened.length = m.world.opened.length) : Supplies m m' := by
  refine ⟨hgrows, fun i f hf hi _ => ?_⟩
  have hlt : i < m'.world.opened.length := (List.getElem?_eq_some_iff.1 hf).1
  omega

theorem trans {a b c : Machine} (hab : Supplies a b) (hbc : Supplies b c) : Supplies a c := by
  refine ⟨hab.grows.trans hbc.grows, fun i f hf hi hwrites => ?_⟩
  by_cases hlt : i < b.world.opened.length
  · obtain ⟨f', hf', -, hsame, -⟩ := hbc.grows.opened i _ (List.getElem?_eq_getElem hlt)
    obtain rfl := Option.some.inj (hf.symm.trans hf')
    have htakes := hab.takes i _ (List.getElem?_eq_getElem hlt) hi (hsame ▸ hwrites)
    exact htakes.of_grows hbc.grows
  · exact hbc.takes i f hf (Nat.le_of_not_lt hlt) hwrites

end Supplies

instance : Frame Supplies := ⟨fun m => .of_length (.refl m.world) rfl, .trans⟩

instance : Speaks Supplies where
  speak h := by
    obtain ⟨file, w, -, hw, rfl⟩ := Machine.write_eq_ok h
    obtain ⟨f, -, hlength, -⟩ := World.write_cases hw
    exact .of_length ((World.write_spec hw).grows.trans (w.grows_note _)) hlength
  logged m r := .of_length (m.world.grows_note _) rfl
  counted m c := .of_length (World.Mute.counted m c).grows rfl

/-- What is opened for writing can be written to. -/
theorem accepts_of_access {files after : FileTree} {place : Place} {mode : OpenMode} {target : Target}
    (h : access files place mode = .ok (target, after)) (hmode : mode ≠ .read) (atEnd : Bool) :
    OpenFile.Accepts ⟨target, true, atEnd, 0⟩ after := by
  unfold access at h
  split at h
  · simp at h
  · simp [hmode] at h
  · obtain ⟨rfl, rfl⟩ := Prod.mk.inj (Except.ok.inj h)
    exact ⟨rfl, nofun, nofun, nofun⟩
  · next m data program hn =>
    rw [if_neg hmode] at h
    split at h
    · simp at h
    · have hplace (data : Bytes) : OpenFile.Accepts ⟨.place place, true, atEnd, 0⟩
          (files.put place (.file m data program)) := by
        refine ⟨rfl, nofun, nofun, fun p hp => ?_⟩
        obtain rfl := Target.place.inj hp
        exact ⟨m, data, program, FileTree.node?_put_self _ _ _⟩
      split at h
      · obtain ⟨rfl, rfl⟩ := Prod.mk.inj (Except.ok.inj h)
        exact hplace _
      · obtain ⟨rfl, rfl⟩ := Prod.mk.inj (Except.ok.inj h)
        exact hplace _

namespace Act.Keeps

theorem openFile_supplies (path : Text) (mode : OpenMode) : Keeps Supplies (Act.openFile path mode) := by
  have hnoted (m : Machine) r : Supplies m (m.note (.called m.proc.pid (.openFile path mode r))) :=
    .of_length (m.world.grows_note _) rfl
  refine .bind (.refuseNul _) fun _ => .bind (.call_of (fun m e => hnoted m _) fun m x m' h => ?_)
    fun x => .answer _ x
  split at h
  · simp at h
  next place made hl =>
  split at h
  · simp at h
  next target files ha =>
  obtain ⟨-, rfl⟩ := Prod.mk.inj (Except.ok.inj h)
  refine ⟨⟨((locate_spec hl).1.trans (access_spec ha).1), m.world.opened_append _, Nat.le_refl _, rfl⟩,
    fun i f hf hi hwrites => ?_⟩
  refine World.takes_iff.2 ⟨f, hf, ?_⟩
  obtain rfl : f = ⟨target, mode ≠ .read, mode = .append, 0⟩ := by
    have hmem : (m.world.opened ++ [_])[i]? = some f := hf
    rw [List.getElem?_append_right hi] at hmem
    exact List.mem_singleton.1 (List.mem_of_getElem? hmem)
  have hmode : mode ≠ .read := by simpa using hwrites
  have haccepts := accepts_of_access ha hmode (mode = .append)
  show OpenFile.Accepts _ files
  simpa [hmode] using haccepts

theorem applyRedirects_supplies (c : Command) : Keeps Supplies (LineShell.applyRedirects c) := by
  have hnoted (m : Machine) event : Supplies m (m.note (.called m.proc.pid event)) :=
    .of_length (m.world.grows_note _) rfl
  refine .bind .proc fun p => .bindAll_of openFile_supplies (fun source target => ?_) (fun fd => ?_) _ _
  · exact .dup_of (fun m _ => hnoted m _) fun m _ _ => .of_length (.refl m.world) rfl
  · exact .close_of (fun m _ => hnoted m _) fun m => .of_length (.refl m.world) rfl

end Act.Keeps

/-- Where standard error leads once the redirects of a command are made, if it led to an open file `x`
before: there still, or to a file that is opened for it. -/
def Command.ErrorsTo (c : Command) (m m' : Machine) (x y : Nat) : Prop :=
  match c.redirect? m.proc.table 2 with
  | none => y = x
  | some (path, mode) => Anew m m' path mode y

/-- Once its redirects are made a command can tell the user of failures if it could before, where they
lead standard error. -/
theorem applyRedirects_tells {c : Command} {m k : Machine} {x : Nat} (hx : m.Tells x)
    (h : applyRedirects c m = .ok () k) : ∃ y, c.ErrorsTo m k x y ∧ k.Tells y := by
  have hsupplies : Supplies m k := (Keeps.applyRedirects_supplies c).of_ok h
  obtain ⟨files, hfiles, hget, -⟩ := applyRedirects_get? ⟨x, hx.1⟩ h
  have herrors := hget 2 (Nat.le_refl 2)
  unfold Command.ErrorsTo
  cases hredirect : c.redirect? m.proc.table 2 with
  | none =>
    rw [boundFile_of_none hredirect, hx.1, Option.none_or, Option.some_or] at herrors
    exact ⟨x, rfl, herrors, hx.2.of_grows hsupplies.grows⟩
  | some target =>
    obtain ⟨path, mode⟩ := target
    obtain ⟨y, hbound, hnew, hopens⟩ := exists_boundFile_of_some (P := Anew m k) hfiles hredirect
    rw [hbound, Option.some_or] at herrors
    refine ⟨y, ⟨hnew, hopens⟩, herrors, ?_⟩
    obtain ⟨f, hf, -, hwrites, -⟩ := hopens
    have hmode : mode ≠ .read := Command.errors_mode_ne_read hredirect
    exact hsupplies.takes y f hf hnew (by simpa [hmode] using hwrites)

/-! ### Programs -/

/-- The running process gives and takes bytes, and does nothing else that is notable. -/
structure Trades (m m' : Machine) : Prop where
  /-- The process is as it was. -/
  proc : m'.proc = m.proc
  /-- It gives and takes bytes. -/
  shows : ∃ es, Shows Entry.notable? es m m' ∧ ∀ e ∈ es, e.Utters m.proc.pid

instance : Frame Trades where
  refl m := ⟨rfl, [], .of_eq rfl, by simp⟩
  trans := by
    rintro a b c ⟨hab, es, hes, hutters⟩ ⟨hbc, fs, hfs, hutters'⟩
    refine ⟨hbc.trans hab, es ++ fs, hes.trans hfs, fun e he => ?_⟩
    rcases List.mem_append.1 he with he | he
    · exact hutters e he
    · exact hab ▸ hutters' e he

instance : Mild Trades where
  mute h := ⟨rfl, [], .of_eq h.journal, by simp⟩
  utter {m e} h := by
    refine ⟨rfl, _, .note m e, fun e' he' => ?_⟩
    have hsome : Entry.notable? e = some e' := by simpa using he'
    unfold Entry.notable? at hsome
    split at hsome
    · simp at hsome
    · exact Option.some.inj hsome ▸ h

/-- The machine in which a program begins to run. -/
def Machine.entered (m : Machine) (file : Text) (argv : List Text) (found : Place × Program) : Machine :=
  ((m.counted .exec).note (.called m.proc.pid (execEvent file argv (.ok found)))).note
    (.entered m.proc argv)

/-- The machine once a program ran to its end. -/
def Machine.finished (m : Machine) (file : Text) (argv : List Text) (found : Place × Program) : Machine :=
  let (raw, n) := found.2.run argv.tail (m.entered file argv found)
  n.note (.called n.proc.pid (.ended raw))

/-- What is notable of a program: it is found and entered, gives and takes bytes, and ends. -/
theorem Machine.finished_shows (m : Machine) (file : Text) (argv : List Text) (found : Place × Program) :
    ∃ own, Shows Entry.notable? ([.called m.proc.pid (execEvent file argv (.ok found)), .entered m.proc argv]
        ++ own ++ [.called m.proc.pid (.ended (found.2.run argv.tail (m.entered file argv found)).1)])
        m (m.finished file argv found) ∧ ∀ e ∈ own, e.Utters m.proc.pid := by
  have hasked : Shows Entry.notable? [_] m
      ((m.counted .exec).note (.called m.proc.pid (execEvent file argv (.ok found)))) := .notable rfl rfl
  have hentered : Shows Entry.notable? [_] _ (m.entered file argv found) := .notable rfl rfl
  have htraded : Trades _ (found.2.run argv.tail (m.entered file argv found)).2 :=
    found.2.run_keeps argv.tail _
  unfold Machine.finished
  generalize found.2.run argv.tail (m.entered file argv found) = r at htraded ⊢
  obtain ⟨raw, n⟩ := r
  obtain ⟨hproc, own, hown, hutters⟩ := htraded
  have hpid : m.proc.pid = n.proc.pid := (congrArg Proc.pid hproc).symm
  have hended : Shows Entry.notable? [.called m.proc.pid (.ended raw)] n
      (n.note (.called n.proc.pid (.ended raw))) := .notable rfl (by rw [hpid]; rfl)
  exact ⟨own, by simpa using hasked.trans (hentered.trans (hown.trans hended)), hutters⟩

/-- A process that can be given its texts is refused its program, or runs it to its end. -/
theorem exec_of_fit {file : Text} {argv : List Text} {m : Machine}
    (hfault : imageFault? file argv m.proc.table = none) :
    (∃ e, exec file argv m = .ok (.error e) (m.refused file argv e)) ∨
    ∃ found, exec file argv m = .ok (.ok (found.2.run argv.tail (m.entered file argv found)).1)
      (m.finished file argv found) := by
  rw [exec_eq, bind_eq, hfault]
  show (∃ e, (call .exec (execEvent file argv) (findProgram m.proc.table file) >>= _) m = _) ∨
    ∃ found, (call .exec (execEvent file argv) (findProgram m.proc.table file) >>= _) m = _
  rw [bind_eq]
  rcases call_cases .exec (execEvent file argv) (findProgram m.proc.table file) m with
    ⟨e, hc⟩ | ⟨found, next, hw, hc⟩
  · rw [hc]
    exact Or.inl ⟨e, rfl⟩
  · rw [hc]
    obtain rfl := findProgram_eq_ok hw
    exact Or.inr ⟨found, rfl⟩

theorem runProgram_of_entered {file : Text} {args : List Text} {raw : Nat} {m k : Machine}
    (hfile : file ≠ []) (h : exec file (file :: args) m.tried = .ok (.ok raw) k) :
    runProgram (file :: args) m = .ok (.program raw) k := by
  obtain ⟨c, cs, rfl⟩ := List.exists_cons_of_ne_nil hfile
  show (exec (c :: cs) ((c :: cs) :: args) >>= _) m.tried = _
  rw [bind_eq, h]
  rfl

/-- What comes of a process that is to become a program, and whose standard error leads to an open file
`y`: the status that its end stands for, and what is notable of it. -/
inductive Turned (p : Proc) (y : Nat) (file : Text) (args : List Text) : Status → List Entry → Prop where
  /-- There is nothing to become. -/
  | nothing (hfile : file = []) :
      Turned p y file args (.code 127) [.wrote p.pid y (diagnostic "empty command".toList) false]
  /-- The texts cannot be given to a program: nothing is said. -/
  | unfit {failure : Failure} (hfile : file ≠ [])
      (hfault : imageFault? file (file :: args) p.table = some failure) :
      Turned p y file args (.code 1) []
  /-- The system refuses. -/
  | refused (hfile : file ≠ []) (hfault : imageFault? file (file :: args) p.table = none) (e : Errno) :
      Turned p y file args (.code (refusal file e).1)
        [.called p.pid (execEvent file (file :: args) (.error e)),
          .wrote p.pid y (diagnostic (refusal file e).2) false]
  /-- The program is entered, and runs to its end. -/
  | program {q : Proc} {own : List Entry} {k : Machine} (hfile : file ≠ [])
      (hfault : imageFault? file (file :: args) p.table = none) (found : Place × Program)
      (hq : p.Same q) (hk : k.proc = q) (hown : ∀ e ∈ own, e.Utters p.pid) :
      Turned p y file args (Ending.ofRaw (found.2.run args k).1).status
        ([.called p.pid (execEvent file (file :: args) (.ok found)), .entered q (file :: args)]
          ++ own ++ [.called p.pid (.ended (found.2.run args k).1)])

theorem refusal_lt (file : Text) (e : Errno) : (refusal file e).1 < 256 := by
  cases e <;> simp [refusal]

theorem Exits.status_eq {r : EStateM.Result Failure Machine ChildEnd} {code : Nat} {k : Machine}
    (h : Exits r code k) (hcode : code < 256) : (Ending.ofRaw (rawOf r)).status = .code code := by
  rw [h.rawOf_eq, status_ofRaw_exitedRaw hcode]

/-- A process that can tell the user of failures, and is to become a program. -/
theorem runProgram_turned {k : Machine} {y : Nat} (hy : k.Tells y) (file : Text) (args : List Text) :
    ∃ es, Turned k.proc y file args (Ending.ofRaw (rawOf (runProgram (file :: args) k))).status es ∧
      Shows Entry.notable? es k ((runProgram (file :: args)).after k) := by
  have htried : k.tried.Tells y := (Machine.tells_congr y rfl rfl rfl).2 hy
  by_cases hfile : file = []
  · subst hfile
    obtain ⟨k', hexits, htold⟩ := htried.exits "empty command".toList 127
    have hexits' : Exits (runProgram ([] :: args) k) 127 k' := hexits
    rw [hexits'.status_eq (by decide), hexits'.after]
    exact ⟨_, .nothing rfl, .notable rfl htold⟩
  cases hfault : imageFault? file (file :: args) k.proc.table with
  | some failure =>
    have hexits : Exits (runProgram (file :: args) k) 1 k.tried := by
      rw [runProgram_of_fault hfile hfault]
      exact .failure
    rw [hexits.status_eq (by decide), hexits.after]
    exact ⟨_, .unfit hfile hfault, .of_eq rfl⟩
  | none =>
    rcases exec_of_fit (m := k.tried) hfault with ⟨e, hexec⟩ | ⟨found, hexec⟩
    · have htells : (k.tried.refused file (file :: args) e).Tells y ↔ k.tried.Tells y :=
        Machine.tells_congr y rfl rfl rfl
      obtain ⟨k', hexits, htold⟩ := (htells.2 htried).exits (refusal file e).2 (refusal file e).1
      rw [← runProgram_of_refused hfile hexec] at hexits
      rw [hexits.status_eq (refusal_lt file e), hexits.after]
      have hasked : Shows Entry.notable? [_] k (k.tried.refused file (file :: args) e) :=
        .notable rfl rfl
      exact ⟨_, .refused hfile hfault e, hasked.trans (.notable rfl htold)⟩
    · have hrun := runProgram_of_entered hfile hexec
      obtain ⟨own, hshows, hutters⟩ := k.tried.finished_shows file (file :: args) found
      have hsame : k.proc.Same k.tried.proc := ⟨rfl, rfl, rfl, rfl⟩
      rw [hrun, after_of_ok hrun]
      exact ⟨_, .program (k := k.tried.entered file (file :: args) found) hfile hfault found hsame rfl
        hutters, hshows⟩

/-! ### Commands -/

/-- What comes of a command that runs as a child, between two machines, where standard error led to an
open file `x` before: the status, and what is notable of the run. -/
inductive Comes (c : Command) (m m' : Machine) (x : Nat) : Status → List Entry → Prop where
  /-- A target cannot be opened: the user is told where standard error led before. -/
  | unopened {e : Errno} {path : Text} {es : List Entry}
      (h : Tried m.world.nextPid (c.targets m.proc.table) es (.error (.system e (some path)))) :
      Comes c m m' x (.code 1)
        (es ++ [.wrote m.world.nextPid x (diagnostic (path ++ ": ".toList ++ e.reason)) false])
  /-- The path of a target holds a NUL: nothing is said. -/
  | illegible {es : List Entry}
      (h : Tried m.world.nextPid (c.targets m.proc.table) es (.error .embeddedNull)) :
      Comes c m m' x (.code 1) es
  /-- The targets are opened, and the child is to become its program. -/
  | opened {p : Proc} {y : Nat} {s : Status} {es fs : List Entry}
      (h : Tried m.world.nextPid (c.targets m.proc.table) es (.ok ())) (hy : c.ErrorsTo m m' x y)
      (hpid : p.pid = m.world.nextPid) (htable : p.table = m.proc.table) (hcwd : p.cwd = m.proc.cwd)
      (herrors : p.fds.get? 2 = some y)
      (hturned : Turned p y (c.verb.expand m.proc.table) (c.args.map (·.expand m.proc.table)) s fs) :
      Comes c m m' x s (es ++ fs)

theorem Tried.failure {pid : Nat} {ts : List (Text × OpenMode)} {es : List Entry} {r : Except Failure Unit}
    (h : Tried pid ts es r) :
    r = .ok () ∨ (∃ e path, r = .error (.system e (some path))) ∨ r = .error .embeddedNull := by
  induction h with
  | done => exact Or.inl rfl
  | illegible _ => exact Or.inr (Or.inr rfl)
  | refused _ e => exact Or.inr (Or.inl ⟨e, _, rfl⟩)
  | opened _ _ _ ih => exact ih

section Commands

variable {c : Command} {m n k m' : Machine} {x y : Nat}

theorem Command.ErrorsTo.mono (h : c.ErrorsTo n k x y) (htable : n.proc.table = m.proc.table)
    (hcwd : n.proc.cwd = m.proc.cwd) (hle : m.world.opened.length ≤ n.world.opened.length)
    (hgrows : k.world.Grows m'.world) : c.ErrorsTo m m' x y := by
  unfold ErrorsTo at h ⊢
  rw [htable] at h
  split at h
  · exact h
  · obtain ⟨hnew, hopens⟩ := h
    exact ⟨Nat.le_trans hle hnew, hcwd ▸ hopens.of_grows hgrows⟩

theorem Comes.mono {s : Status} {es : List Entry} (h : Comes c n k x s es) (hproc : n.proc = m.proc)
    (hnext : n.world.nextPid = m.world.nextPid) (hle : m.world.opened.length ≤ n.world.opened.length)
    (hgrows : k.world.Grows m'.world) : Comes c m m' x s es := by
  cases h with
  | unopened h =>
    rw [hproc, hnext] at h
    rw [hnext]
    exact .unopened h
  | illegible h =>
    rw [hproc, hnext] at h
    exact .illegible h
  | opened h hy hpid htable hcwd herrors hturned =>
    rw [hproc, hnext] at h
    rw [hproc] at htable hcwd hturned
    rw [hnext] at hpid
    exact .opened h (hy.mono (congrArg Proc.table hproc) (congrArg Proc.cwd hproc) hle hgrows) hpid htable
      hcwd herrors hturned

/-- The redirects of a command try its targets. Where one cannot be opened, standard error is as it was. -/
theorem applyRedirects_tried (hfree : ∀ e ∈ m.since ((applyRedirects c).after m), ¬e.Hinders) :
    ∃ r es k, attempt (applyRedirects c) m = .ok r k ∧ Tried m.proc.pid (c.targets m.proc.table) es r ∧
      Shows Entry.notable? es m k ∧
      ∀ e, r = .error e → m.proc.fds.get? 2 ≠ none → k.proc.fds.get? 2 = m.proc.fds.get? 2 := by
  have hbindings : ∀ e ∈ m.since ((bindAll [] (c.bindings m.proc.table)).after m), ¬e.Hinders := hfree
  obtain ⟨r, es, k, hrun, htried, hshows, hkept⟩ := bindAll_tried hbindings
  rw [c.bindings_targets] at htried
  exact ⟨r, es, k, hrun, htried, hshows, fun e he => hkept e he 2 (Nat.le_refl 2) (c.errors_last _)⟩

/-- What comes of the child that is made for a command. -/
theorem runChild_comes (hfree : ∀ e ∈ n.born.since ((runChild c).after n.born), ¬e.Hinders)
    (hx : n.Tells x) :
    ∃ es, Comes c n ((runChild c).after n.born) x (Ending.ofRaw (rawOf (runChild c n.born))).status es ∧
      Shows Entry.notable? es n.born ((runChild c).after n.born) := by
  have hborn : n.born.Tells x ↔ n.Tells x := Machine.tells_congr x rfl rfl rfl
  have hrest : Recorded ((applyRedirects c).after n.born) ((runChild c).after n.born) := by
    rw [← after_attempt]
    refine Keeps.rest (fun r => ?_) n.born
    split
    · exact (Keeps.bind .proc fun _ => .runProgram_proceeds _).mono fun _ _ => Proceeds.recorded
    · exact .bind (.report _) fun _ => .pure _
    · exact .throw _
  obtain ⟨r, es, k, hrun, htried, hshows, hkept⟩ :=
    applyRedirects_tried (c := c) fun e he => hfree e (hrest.mem_first he)
  have hrebound : Rebound n.born k := (Keeps.applyRedirects c).attempt.of_ok hrun
  have hpid : k.proc.pid = n.world.nextPid := hrebound.pid
  rcases htried.failure with rfl | ⟨e, path, rfl⟩ | rfl
  · have hredirected : applyRedirects c n.born = .ok () k := by
      rcases attempt_eq_ok hrun with ⟨_, -, hok⟩ | ⟨_, he, -⟩
      · exact hok
      · exact nomatch he
    obtain ⟨y, hy, hk⟩ := applyRedirects_tells (hborn.2 hx) hredirected
    obtain ⟨fs, hturned, hshows'⟩ := runProgram_turned hk (c.verb.expand n.proc.table)
      (c.args.map (·.expand n.proc.table))
    have hchild : runChild c n.born = runProgram (c.argv n.proc.table) k :=
      hrebound.table ▸ runChild_of_redirected hredirected
    have hgrows := (Keeps.runProgram_proceeds (c.argv n.proc.table) k).widens.grows
    rw [hchild, after_eq_of_eq hchild]
    exact ⟨es ++ fs, .opened htried (hy.mono rfl rfl (Nat.le_refl _) hgrows) hpid hrebound.table hrebound.cwd
      hk.1 hturned, hshows.trans hshows'⟩
  · have hk : k.Tells x := (hborn.2 hx).of_grows hrebound.plain.grows
      (hkept _ rfl (by simp [(hborn.2 hx).1]))
    obtain ⟨k', hexits, htold⟩ := hk.exits (path ++ ": ".toList ++ e.reason) 1
    have hchild : Exits (runChild c n.born) 1 k' := by
      show Exits ((attempt (applyRedirects c) >>= _) n.born) 1 k'
      rw [bind_eq, hrun]
      exact hexits
    rw [hchild.status_eq (by decide), hchild.after]
    rw [hpid] at htold
    exact ⟨_, .unopened htried, hshows.trans (.notable rfl htold)⟩
  · have hchild : Exits (runChild c n.born) 1 k := by
      show Exits ((attempt (applyRedirects c) >>= _) n.born) 1 k
      rw [bind_eq, hrun]
      exact .failure
    rw [hchild.status_eq (by decide), hchild.after]
    exact ⟨es, .illegible htried, hshows⟩

end Commands

theorem Ending.exists_code (e : Ending) : ∃ n, e.status = .code n := by
  cases e <;> exact ⟨_, rfl⟩

/-- **What comes of a command** that runs as a child, where no calls fail but those that open files and
enter programs, and standard error is open to be written to, as it is in every session that begins with it
(`Machine.boot_tells`): whatever these calls come to, the command answers with the status that is due,
nothing is notable besides what its child is to do, and the running process is left as it was, but that it
counts and remembers. -/
theorem execute_comes {rules : Rules} {c : Command} {m : Machine} {x : Nat} (mark : Option Nat)
    (level : Int) (hkind : rules.kind (c.verb.expand m.proc.table) = .external)
    (hfree : ∀ e ∈ m.since ((execute rules (.leaf mark c) level).after m), ¬e.Hinders)
    (hsane : m.world.Sane) (hx : m.Tells x) :
    ∃ n m', execute rules (.leaf mark c) level m = .ok (.code n) m' ∧
      Comes c m m' x (.code n) ((m.since m').filterMap Entry.notable?) ∧
      m'.proc = { m.proc with
        stats := { m.proc.stats with fork := m.proc.stats.fork + 1, wait := m.proc.stats.wait + 1 }
        commandLast := n } ∧
      m'.world.ended = m.world.ended := by
  obtain ⟨raw, m₁, m₂, m', hserved, hrun⟩ := exists_served_of_free mark level hkind hfree hsane
  rw [after_of_ok hrun] at hfree
  have hbegan : Shows Entry.notable? [] m ((Tree.leaf mark c).told level m) :=
    Tree.told_of (R := Shows Entry.notable? []) (fun _ _ _ => .routine rfl rfl) _ level m
  have hproc : ((Tree.leaf mark c).told level m).proc = m.proc := Tree.told_idle _ level m
  have hfollowed : Followed m ((Tree.leaf mark c).told level m) := Tree.told_followed _ level m
  obtain ⟨hnext, hended⟩ := (Tree.leaf mark c).told_childless level m
  generalize (Tree.leaf mark c).told level m = n at *
  have hborn : Recorded m n.born := hfollowed.journal.trans n.followed_born.journal
  have hfree' : ∀ e ∈ n.born.since ((runChild c).after n.born), ¬e.Hinders := fun e he =>
    hfree e (hborn.mem_rest (hserved.recorded.mem_first he))
  obtain ⟨es, hcomes, hshows⟩ := runChild_comes hfree' (hx.of_grows hfollowed.grows (by rw [hproc]))
  obtain ⟨code, hstatus⟩ := (Ending.ofRaw raw).exists_code
  rw [← hserved.raw_eq, hstatus] at hcomes
  rw [hstatus] at hrun
  refine ⟨code, m', hrun, ?_, ?_, (hserved.ended (hfollowed.sane hsane)).trans hended⟩
  · rw [(hbegan.trans (hserved.shows hshows)).since]
    exact hcomes.mono hproc hnext hfollowed.grows.opened_le hserved.grows
  · rw [hserved.proc hstatus, hproc]

/-- The command `nosuch < /dev/null > gone/out 2> err`. -/
def intoNowhere : Command :=
  ⟨[.lit "nosuch".toList], [], some [.lit "/dev/null".toList], some ⟨[.lit "gone/out".toList], false⟩,
    some ⟨[.lit "err".toList], false⟩⟩

/-- `nosuch < /dev/null > gone/out 2> err` fails at its second target: neither is the third one opened nor
the program looked for, and the user reads of the second one where standard error led before. -/
theorem execute_comes_intoNowhere :
    let rules : Rules := ⟨true, []⟩
    let m := Machine.boot .standard FileTree.home [] [] [] []
    rules.kind (intoNowhere.verb.expand m.proc.table) = .external ∧
      (∀ e ∈ m.since ((execute rules (.leaf none intoNowhere) 0).after m), ¬e.Hinders) ∧ m.world.Sane ∧
      m.Tells 2 ∧ ∃ m', execute rules (.leaf none intoNowhere) 0 m = .ok (.code 1) m' ∧
        Comes intoNowhere m m' 2 (.code 1) ((m.since m').filterMap Entry.notable?) ∧
        (m.since m').filterMap Entry.spoken?
          = [(m.world.nextPid, 2, diagnostic "gone/out: No such file or directory".toList)] := by
  intro rules m
  have hkind : rules.kind (intoNowhere.verb.expand m.proc.table) = .external := by decide +kernel
  have hfree : ∀ e ∈ m.since ((execute rules (.leaf none intoNowhere) 0).after m), ¬e.Hinders := by
    decide +kernel
  have hsane : m.world.Sane := Machine.boot_sane .standard FileTree.home [] [] [] []
  have htells : m.Tells 2 := Machine.boot_tells .standard FileTree.home [] (by simp) [] []
  obtain ⟨n, m', hrun, hcomes, -, -⟩ := execute_comes none 0 hkind hfree hsane htells
  have hread : (answer? (execute rules (.leaf none intoNowhere) 0 m)).map
      (fun r => (r.1, (m.since r.2).filterMap Entry.spoken?)) = some (.code 1,
        [(m.world.nextPid, 2, diagnostic "gone/out: No such file or directory".toList)]) := by
    decide +kernel
  rw [hrun] at hread
  obtain ⟨hn, hspoken⟩ := Prod.mk.inj (Option.some.inj hread)
  obtain rfl : n = 1 := Status.code.inj hn
  exact ⟨hkind, hfree, hsane, htells, m', hrun, hcomes, hspoken⟩

end LineShell
