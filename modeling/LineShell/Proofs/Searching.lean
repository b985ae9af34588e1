import LineShell.Proofs.Serving

/-!
# Programs that are found nowhere

A verb without a slash is looked for in one directory after the other. Where none of them has the
program, and none says more than that it is not there, the error of the last one is left. Whether
that one lacks the program, or is no directory at all, decides what the user is told and how the
child exits: the former is a command that was not found, the latter a command that failed. The
order of the directories before the last one makes no difference.

## The model

* `Table.searched` are the directories in which a table has programs looked for, and
  `Machine.lookup` is what comes of looking in one of them. `Machine.Misses` says that a directory
  does not have the program, or is none.
* `Entry.spoken?` reads off a journal entry the process, the open file and the bytes of a write
  that is not for the log.
* `refusal` gives the exit code and the message for each error by which a program can be refused.
* `Vain` lists what comes of a process that finds a program nowhere, by the error of the last
  directory: its exit code, and what it writes.

## What is proved

* Where no path names a program, the error of the last one is left (`searchProgram_of_absence`,
  `findProgram_of_misses`), and the others may stand in any order (`findProgram_perm`).
* A process that could not become a program tells the user and exits, or fails where it cannot
  tell (`runProgram_of_refused`, `exits_of_not_tells`).
* So such a process comes to one of the listed ends (`runProgram_vain`), and so does the child of
  a command (`Command.Missing.lives`).

Behind the main result stands a run in which the user is not told that the command was not found,
though no directory has it.
-/

namespace LineShell

open Act

/-! ### The search -/

/-- The directories in which a table has programs looked for. -/
def Table.searched (table : Table) : List Text :=
  splitAt ':' ((table.get? "PATH".toList).getD defaultPath)

theorem candidates_of_not_mem {table : Table} {file : Text} (h : '/' ∉ file) :
    candidates table file = table.searched.map fun d => inDirectory d file := by
  simp [candidates, h, Table.searched]

/-- What comes of looking for a program in a directory. -/
def Machine.lookup (m : Machine) (file directory : Text) : Except Errno (Place × Program) :=
  programAt m.world.files m.proc.cwd (inDirectory directory file)

/-- A program is not in a directory: that has no such file, or is no directory. -/
def Machine.Misses (m : Machine) (file directory : Text) : Prop :=
  m.lookup file directory = .error .noEntry ∨ m.lookup file directory = .error .notDirectory

instance (m : Machine) (file directory : Text) : Decidable (m.Misses file directory) :=
  inferInstanceAs (Decidable (_ ∨ _))

theorem Machine.Misses.exists_error {m : Machine} {file directory : Text} (h : m.Misses file directory) :
    ∃ e, e.isAbsence = true ∧ m.lookup file directory = .error e := by
  rcases h with h | h
  · exact ⟨_, rfl, h⟩
  · exact ⟨_, rfl, h⟩

/-- Where no path names a program, and none says more than that, the error of the last one is left. -/
theorem searchProgram_of_absence {files : FileTree} {cwd : Place} {paths : List Text} {path : Text}
    {e : Errno} (h : ∀ p ∈ paths, ∃ e, e.isAbsence = true ∧ programAt files cwd p = .error e)
    (he : e.isAbsence = true) (hpath : programAt files cwd path = .error e) (before : Errno) :
    searchProgram files cwd none (paths ++ [path]) before = .error e := by
  induction paths generalizing before with
  | nil => simp [searchProgram, hpath, he]
  | cons p paths ih =>
    obtain ⟨⟨e', he', hp⟩, hpaths⟩ := List.forall_mem_cons.1 h
    simp only [List.cons_append, searchProgram, hp, he', if_true]
    exact ih hpaths e'

/-- A program that no directory has is not found, for the reason that the last directory gives. -/
theorem findProgram_of_misses {m : Machine} {table : Table} {file : Text} (hplain : '/' ∉ file)
    (h : ∀ d ∈ table.searched, m.Misses file d) :
    ∃ d e, table.searched.getLast? = some d ∧ m.lookup file d = .error e ∧ e.isAbsence = true ∧
      findProgram table file m = .error e := by
  obtain ⟨ds, d, hds⟩ := (List.eq_nil_or_concat' table.searched).resolve_left (splitAt_ne_nil _ _)
  rw [hds] at h
  obtain ⟨e, he, hd⟩ := (h d (by simp)).exists_error
  refine ⟨d, e, by simp [hds], hd, he, ?_⟩
  have hpaths : ∀ p ∈ ds.map (inDirectory · file), ∃ e, e.isAbsence = true ∧
      programAt m.world.files m.proc.cwd p = .error e := by
    intro p hp
    obtain ⟨d', hd', rfl⟩ := List.mem_map.1 hp
    exact (h d' (List.mem_append_left _ hd')).exists_error
  rw [findProgram, candidates_of_not_mem hplain, hds, List.map_append, List.map_singleton,
    searchProgram_of_absence hpaths he hd]
  rfl

/-- The order of the directories before the last one makes no difference to a program that none has. -/
theorem findProgram_perm {m : Machine} {t u : Table} {file d : Text} {ds es : List Text}
    (hplain : '/' ∉ file) (ht : t.searched = ds ++ [d]) (hu : u.searched = es ++ [d]) (hperm : es.Perm ds)
    (h : ∀ x ∈ t.searched, m.Misses file x) : findProgram u file m = findProgram t file m := by
  have hmem (x : Text) (hx : x ∈ u.searched) : x ∈ t.searched := by
    rw [hu, List.mem_append, hperm.mem_iff, ← List.mem_append, ← ht] at hx
    exact hx
  obtain ⟨x, e, hx, hlookup, -, hfind⟩ := findProgram_of_misses hplain h
  obtain ⟨y, e', hy, hlookup', -, hfind'⟩ := findProgram_of_misses hplain fun x hx => h x (hmem x hx)
  obtain rfl : d = x := by simpa [ht] using hx
  obtain rfl : d = y := by simpa [hu] using hy
  obtain rfl := Except.error.inj (hlookup.symm.trans hlookup')
  rw [hfind, hfind']

/-! ### What is written -/

/-- The process, the open file and the bytes of a write that is not for the log. -/
def Entry.spoken? : Entry → Option (Nat × Nat × Bytes)
  | .wrote pid file bytes false => some (pid, file, bytes)
  | _ => none

instance : Overlooks Entry.spoken? where
  routine {e} h := by
    unfold Entry.spoken?
    split
    · exact nomatch h
    · rfl

/-- Calls write nothing. -/
theorem Shows.spoken_of_calls {m m' : Machine} (h : Adds Entry.IsCall m m') :
    Shows Entry.spoken? [] m m' := by
  obtain ⟨es, hes, hcalls⟩ := h
  refine ⟨es, hes, List.filterMap_eq_nil_iff.2 fun e he => ?_⟩
  obtain ⟨pid, event, rfl⟩ := hcalls e he
  rfl

/-! ### Programs that are refused -/

/-- The exit code of a process that could not become a program, and what it tells the user. -/
def refusal (file : Text) : Errno → Nat × Text
  | .noEntry => (127, file ++ ": command not found".toList)
  | .accessDenied => (126, file ++ ": ".toList ++ Errno.accessDenied.reason)
  | .notPermitted => (126, file ++ ": ".toList ++ Errno.notPermitted.reason)
  | e => (1, "Execution failed for '".toList ++ file ++ "': ".toList ++ e.reason)

/-- The machine once a program is tried. -/
def Machine.tried (m : Machine) : Machine := { m with proc.stats.exec := m.proc.stats.exec + 1 }

/-- The machine once a program is refused. -/
def Machine.refused (m : Machine) (file : Text) (argv : List Text) (e : Errno) : Machine :=
  (m.counted .exec).note (.called m.proc.pid (execEvent file argv (.error e)))

/-- What the user reads of a message. -/
def diagnostic (message : Text) : Bytes := encode ("tree_shell: ".toList ++ message ++ ['\n'])

/-- A process that tells the user and exits. -/
theorem Machine.Tells.exits {m : Machine} {x : Nat} (h : m.Tells x) (message : Text) (code : Nat) :
    ∃ m', Exits ((do Act.report message; return .exit code : Act ChildEnd) m) code m' ∧
      m'.world.journal = m.world.journal ++ [.wrote m.proc.pid x (diagnostic message) false] := by
  obtain ⟨w, hw, hreport⟩ := h.report message
  refine ⟨{ m with world := w.note (.wrote m.proc.pid x (diagnostic message) false) }, ?_, ?_⟩
  · rw [bind_eq, hreport]
    exact .exit
  · show w.journal ++ _ = _
    rw [(World.write_spec hw).journal]

/-- A process that is to tell the user, and cannot, fails. -/
theorem exits_of_not_tells {m : Machine} (h : ∀ x, ¬m.Tells x) (message : Text) (code : Nat) :
    Exits ((do report message; return .exit code : Act ChildEnd) m) 1 m := by
  obtain ⟨e, hreport⟩ := report_of_not_tells h message
  rw [bind_eq, hreport]
  exact .failure

section Refusals

variable {file : Text} {args : List Text} {m k : Machine} {e : Errno}

/-- A process that could not become a program tells the user, and exits. -/
theorem runProgram_of_refused (hfile : file ≠ [])
    (h : exec file (file :: args) m.tried = .ok (.error e) k) :
    runProgram (file :: args) m
      = (do report (refusal file e).2; return .exit (refusal file e).1 : Act ChildEnd) k := by
  obtain ⟨c, cs, rfl⟩ := List.exists_cons_of_ne_nil hfile
  show (exec (c :: cs) ((c :: cs) :: args) >>= _) m.tried = _
  rw [bind_eq, h]
  cases e <;> rfl

/-- A process that cannot be given the texts of a program fails. -/
theorem runProgram_of_fault {failure : Failure} (hfile : file ≠ [])
    (h : imageFault? file (file :: args) m.proc.table = some failure) :
    runProgram (file :: args) m = .error failure m.tried := by
  obtain ⟨c, cs, rfl⟩ := List.exists_cons_of_ne_nil hfile
  show (exec (c :: cs) ((c :: cs) :: args) >>= _) m.tried = _
  have htable : imageFault? (c :: cs) ((c :: cs) :: args) m.tried.proc.table = some failure := h
  rw [bind_eq, exec_eq, bind_eq, htable]
  rfl

/-- A program that is not found is refused for that reason. -/
theorem exec_of_unfound {argv : List Text} (hclear : m.world.Clear .exec)
    (hfault : imageFault? file argv m.proc.table = none)
    (hfind : findProgram m.proc.table file (m.counted .exec) = .error e) :
    exec file argv m = .ok (.error e) (m.refused file argv e) := by
  rw [exec_eq, bind_eq, hfault]
  show (call .exec (execEvent file argv) (findProgram m.proc.table file) >>= _) m = _
  rw [bind_eq, call_of_refused hclear.planned? hfind]
  rfl

end Refusals

/-! ### Programs that are found nowhere -/

/-- What comes of a process that finds a program nowhere, where `e` is what is said of the last
directory: its exit code, and what it writes. -/
inductive Vain (k : Machine) (file : Text) (args : List Text) (e : Errno) :
    Nat → List (Nat × Nat × Bytes) → Prop where
  /-- The last directory does not have it: the command was not found. -/
  | notFound {x : Nat} (he : e = .noEntry) (hargs : ∀ a ∈ args, hasNul a = false) (hx : k.Tells x) :
      Vain k file args e 127 [(k.proc.pid, x, diagnostic (file ++ ": command not found".toList))]
  /-- The last directory is none: the command failed. -/
  | failed {x : Nat} (he : e = .notDirectory) (hargs : ∀ a ∈ args, hasNul a = false) (hx : k.Tells x) :
      Vain k file args e 1 [(k.proc.pid, x, diagnostic ("Execution failed for '".toList ++ file
        ++ "': ".toList ++ "Not a directory".toList))]
  /-- An argument cannot be given to a program, or the user cannot be told: nothing is said. -/
  | silent (h : (∃ a ∈ args, hasNul a = true) ∨ ∀ x, ¬k.Tells x) : Vain k file args e 1 []

theorem Vain.code_lt {k : Machine} {file : Text} {args : List Text} {e : Errno} {code : Nat}
    {ws : List (Nat × Nat × Bytes)} (h : Vain k file args e code ws) : code < 256 := by
  cases h <;> decide

theorem imageFault?_eq {file : Text} {args : List Text} {table : Table} (hnul : hasNul file = false)
    (htable : environmentFault? table = none) :
    imageFault? file (file :: args) table = if args.any hasNul then some .embeddedNull else none := by
  simp [imageFault?, hnul, htable]

/-- A process whose program is found nowhere. -/
theorem runProgram_vain {k : Machine} {file : Text} (args : List Text) (hfile : file ≠ [])
    (hplain : '/' ∉ file) (hnul : hasNul file = false) (htable : environmentFault? k.proc.table = none)
    (hclear : k.world.Clear .exec) (h : ∀ d ∈ k.proc.table.searched, k.Misses file d) :
    ∃ d e code ws k', k.proc.table.searched.getLast? = some d ∧ k.lookup file d = .error e ∧
      Vain k file args e code ws ∧ Exits (runProgram (file :: args) k) code k' ∧ Shows Entry.spoken? ws k k' := by
  obtain ⟨d, e, hd, hlookup, he, hfind⟩ := findProgram_of_misses (m := k.tried.counted .exec) hplain h
  have hfault : imageFault? file (file :: args) k.proc.table = _ := imageFault?_eq hnul htable
  by_cases hargs : args.any hasNul
  · rw [if_pos hargs] at hfault
    refine ⟨d, e, 1, [], k.tried, hd, hlookup, .silent (Or.inl (by simpa using hargs)), ?_, .of_eq rfl⟩
    rw [runProgram_of_fault hfile hfault]
    exact .failure
  · rw [if_neg hargs] at hfault
    have hrun := runProgram_of_refused hfile (exec_of_unfound (m := k.tried) hclear hfault hfind)
    have htried : Shows Entry.spoken? [] k (k.tried.refused file (file :: args) e) :=
      .note (k.tried.counted .exec) (.called k.proc.pid (execEvent file (file :: args) (.error e)))
    have htells (x : Nat) : (k.tried.refused file (file :: args) e).Tells x ↔ k.Tells x :=
      Machine.tells_congr x rfl rfl rfl
    rw [hrun]
    by_cases hx : ∃ x, k.Tells x
    · obtain ⟨x, hx⟩ := hx
      have hnone : ∀ a ∈ args, hasNul a = false := by simpa using hargs
      obtain ⟨k', hexits, htold⟩ := ((htells x).2 hx).exits (refusal file e).2 (refusal file e).1
      refine ⟨d, e, _, _, k', hd, hlookup, ?_, hexits, htried.trans (.of_append htold)⟩
      cases e with
      | noEntry => exact .notFound rfl hnone hx
      | notDirectory => exact .failed rfl hnone hx
      | _ => exact nomatch he
    · have hnone : ∀ x, ¬k.Tells x := fun x h => hx ⟨x, h⟩
      exact ⟨d, e, 1, [], _, hd, hlookup, .silent (Or.inr hnone),
        exits_of_not_tells (fun x h => hnone x ((htells x).1 h)) _ _, htried⟩

/-- A command whose child is made from a machine `n`, and, with its redirects made, finds the program
of the command nowhere in a machine `k`. -/
structure Command.Missing (c : Command) (n k : Machine) : Prop where
  /-- The verb is not empty. -/
  ne_nil : c.verb.expand n.proc.table ≠ []
  /-- The verb is no path. -/
  plain : '/' ∉ c.verb.expand n.proc.table
  /-- The verb can be given to the system. -/
  verb : hasNul (c.verb.expand n.proc.table) = false
  /-- The variables can be given to a program. -/
  table : environmentFault? n.proc.table = none
  /-- The redirects are made. -/
  redirected : applyRedirects c n.born = .ok () k
  /-- No directory has the program, and none says more than that. -/
  misses : ∀ d ∈ n.proc.table.searched, k.Misses (c.verb.expand n.proc.table) d

/-- The child of the command finds its program nowhere. -/
theorem Command.Missing.lives {c : Command} {n k : Machine} (h : c.Missing n k)
    (hclear : n.born.world.Clear .exec) :
    ∃ d e code ws k', n.proc.table.searched.getLast? = some d ∧
      k.lookup (c.verb.expand n.proc.table) d = .error e ∧
      Vain k (c.verb.expand n.proc.table) (c.args.map (·.expand n.proc.table)) e code ws ∧
      Exits (runChild c n.born) code k' ∧ Shows Entry.spoken? ws n.born k' := by
  have htable : k.proc.table = n.proc.table := ((Keeps.applyRedirects c).of_ok h.redirected).table
  have honward : Onward n.born k := ((Keeps.applyRedirects_proceeds c).of_ok h.redirected).onward
  have hcalls : Shows Entry.spoken? [] n.born k :=
    .spoken_of_calls ((Keeps.applyRedirects_calls c).of_ok h.redirected)
  rw [runChild_of_redirected h.redirected, htable]
  have henv : environmentFault? k.proc.table = none := htable ▸ h.table
  have hmisses : ∀ d ∈ k.proc.table.searched, k.Misses (c.verb.expand n.proc.table) d := by
    rw [htable]
    exact h.misses
  obtain ⟨d, e, code, ws, k', hd, hlookup, hvain, hexits, hspoken⟩ := runProgram_vain
    (c.args.map (·.expand n.proc.table)) h.ne_nil h.plain h.verb henv (honward.clear hclear) hmisses
  exact ⟨d, e, code, ws, k', htable ▸ hd, hlookup, hvain, hexits, hcalls.trans hspoken⟩

/-- **Main result**: a command that is found nowhere answers as the last directory says. Where that one
does not have it the status is 127, and the user reads that the command was not found. Where it is no
directory the status is 1, and the user reads of a failure. Nothing else is written in all the run. -/
theorem execute_missing {rules : Rules} {c : Command} {m k : Machine} (mark : Option Nat) (level : Int)
    (hkind : rules.kind (c.verb.expand m.proc.table) = .external)
    (hclear : ∀ call ∈ [CallName.fork, .exec, .wait], m.world.Clear call) (hsane : m.world.Sane)
    (h : c.Missing ((Tree.leaf mark c).told level m) k) :
    ∃ d e code ws m', m.proc.table.searched.getLast? = some d ∧
      k.lookup (c.verb.expand m.proc.table) d = .error e ∧
      Vain k (c.verb.expand m.proc.table) (c.args.map (·.expand m.proc.table)) e code ws ∧
      execute rules (.leaf mark c) level m = .ok (.code code) m' ∧
      (m.since m').filterMap Entry.spoken? = ws := by
  have hproc : ((Tree.leaf mark c).told level m).proc = m.proc := (Tree.leaf mark c).told_idle level m
  have honward : Onward m ((Tree.leaf mark c).told level m) := (Tree.told_proceeds _ level m).onward
  have hexec := (honward.trans (.born _)).clear (hclear .exec (by simp))
  obtain ⟨d, e, code, ws, k', hd, hlookup, hvain, hexits, hspoken⟩ := h.lives hexec
  rw [hproc] at hd hlookup hvain
  obtain ⟨m', hrun, hwritten⟩ := execute_of_exits mark level hkind (hclear .fork (by simp))
    (hclear .wait (by simp)) hsane hexits hspoken hvain.code_lt
  exact ⟨d, e, code, ws, m', hd, hlookup, hvain, hrun, hwritten.since⟩

/-- The command `nosuch`. -/
def nosuch : Command := ⟨[.lit "nosuch".toList], [], none, none, none⟩

/-- A session before anything happened, with a search path. -/
def Machine.searching (path : Text) : Machine :=
  .boot .standard FileTree.home [] [] [] [("PATH".toList, path)]

/-- Where `/dev/null` is searched before `/bin`, the command `nosuch` is not found. -/
theorem execute_missing_nosuch :
    let rules : Rules := ⟨true, []⟩
    let m := Machine.searching "/dev/null:/bin".toList
    let n := (Tree.leaf none nosuch).told 0 m
    rules.kind (nosuch.verb.expand m.proc.table) = .external ∧
      (∀ call ∈ [CallName.fork, .exec, .wait], m.world.Clear call) ∧ m.world.Sane ∧
      nosuch.Missing n n.born ∧
      ∃ m', execute rules (.leaf none nosuch) 0 m = .ok (.code 127) m' ∧
        (m.since m').filterMap Entry.spoken?
          = [(m.world.nextPid, 2, diagnostic "nosuch: command not found".toList)] := by
  intro rules m n
  have hkind : rules.kind (nosuch.verb.expand m.proc.table) = .external := by decide +kernel
  have hclear : ∀ call ∈ [CallName.fork, .exec, .wait], m.world.Clear call := fun _ _ => nofun
  have hsane : m.world.Sane := Machine.boot_sane .standard FileTree.home [] [] [] _
  have hmissing : nosuch.Missing n n.born :=
    ⟨by decide, by decide, by decide, by decide, rfl, by decide +kernel⟩
  obtain ⟨d, e, code, ws, m', hd, hlookup, hvain, hrun, hwritten⟩ :=
    execute_missing none 0 hkind hclear hsane hmissing
  have hlast : m.proc.table.searched.getLast? = some "/bin".toList := by decide +kernel
  obtain rfl := Option.some.inj (hlast.symm.trans hd)
  have hbin : n.born.lookup (nosuch.verb.expand m.proc.table) "/bin".toList = .error .noEntry := by
    decide +kernel
  obtain rfl := Except.error.inj (hbin.symm.trans hlookup)
  have htells : n.born.Tells 2 := ⟨rfl, World.takes_iff.2 ⟨_, rfl, rfl, by simp, by simp, by simp⟩⟩
  refine ⟨hkind, hclear, hsane, hmissing, m', ?_⟩
  cases hvain with
  | notFound _ _ hx =>
    obtain rfl := Option.some.inj (hx.1.symm.trans htells.1)
    exact ⟨hrun, hwritten⟩
  | failed he => exact nomatch he
  | silent h =>
    rcases h with ⟨a, ha, -⟩ | hnone
    · simp [nosuch] at ha
    · exact absurd htells (hnone 2)

/-- A command that is found nowhere is not always told to be so: the order of the directories matters.
Where `/dev/null` is searched behind `/bin`, the command `nosuch` has failed. -/
theorem execute_missing_not_always :
    ¬∀ (rules : Rules) (c : Command) (m k : Machine),
      rules.kind (c.verb.expand m.proc.table) = .external →
      (∀ call ∈ [CallName.fork, .exec, .wait], m.world.Clear call) → m.world.Sane →
      c.Missing ((Tree.leaf none c).told 0 m) k → (∀ a ∈ c.args, hasNul (a.expand m.proc.table) = false) →
      (∃ x, k.Tells x) → ∃ m', execute rules (.leaf none c) 0 m = .ok (.code 127) m' := by
  intro halways
  let m := Machine.searching "/bin:/dev/null".toList
  let n := (Tree.leaf none nosuch).told 0 m
  have hmissing : nosuch.Missing n n.born :=
    ⟨by decide, by decide, by decide, by decide, rfl, by decide +kernel⟩
  have htells : n.born.Tells 2 := ⟨rfl, World.takes_iff.2 ⟨_, rfl, rfl, by simp, by simp, by simp⟩⟩
  have hfailed : (answer? (execute ⟨true, []⟩ (.leaf none nosuch) 0 m)).map (·.1) = some (.code 1) := by
    decide +kernel
  obtain ⟨m', hrun⟩ := halways ⟨true, []⟩ nosuch m n.born (by decide +kernel) (fun _ _ => nofun)
    (Machine.boot_sane .standard FileTree.home [] [] [] _) hmissing (by simp [nosuch]) ⟨2, htells⟩
  rw [hrun] at hfailed
  exact nomatch hfailed

end LineShell
