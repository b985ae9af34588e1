import LineShell.Proofs.Wiring

/-!
# Children and the programs they become

What each action of a tree's run contributes to the wiring: which programs it enters, relative to
which descriptors, and that it gives the running process its descriptors back. A child works on a
copy of its maker's process, so only the world is left of it.

## The model

* `Bound` is the frame of actions that leave the descriptors as they were.
* `Enters` says of an action in a process with certain descriptors that the programs it enters are
  of some leaves at most, and wired relative to certain descriptors, which need not be its own.
* `Restores` says of an action that it answers only with the descriptors as they were; where it
  fails they may have changed.
* `Runs` is what is shown of a tree that stands anywhere: it enters programs of its leaves at
  most, and gives its descriptors back.

## What is proved

* A program that runs only reads and writes, through descriptors that its process had
  (`Program.run_keeps`), and to find a program changes nothing (`findProgram_eq_ok`).
* `exec_eq` takes the call by which a process becomes a program apart: it looks for the program,
  and then enters it or is answered with an error.
* What a child enters its maker's run enters, with the descriptors that the child began with
  (`Enters.runAs`, `Enters.spawn`), and whatever it does to its descriptors its maker's stay
  (`Keeps.spawn`).
-/

namespace LineShell

open Act

/-! ### Actions that enter no program -/

/-- The descriptors are as they were. -/
def Bound (m m' : Machine) : Prop := m'.proc.fds = m.proc.fds

instance : Frame Bound := ⟨fun _ => rfl, fun hab hbc => hbc.trans hab⟩

instance : Kernel Bound := ⟨fun _ => rfl⟩

instance : Forgetful Bound := ⟨fun h => h.fds⟩

namespace Act.Keeps

variable {α : Type}

theorem still {a : Act α} (h : Keeps Calm a) : Keeps Still a := h.mono fun _ _ h => h.still

theorem bound {a : Act α} (h : Keeps Calm a) : Keeps Bound a := h.mono fun _ _ h => h.fds

theorem modifyProc {f : Proc → Proc} (h : ∀ p, (f p).fds = p.fds) :
    Keeps Calm (Act.modifyProc f) := fun m => ⟨.refl m.world, h m.proc⟩

theorem chdir (path : Text) : Keeps Calm (Act.chdir path) :=
  .chdir_of (fun m _ => Kernel.world (m.world.still_note rfl)) fun m _ => ⟨.refl m.world, rfl⟩

theorem await {R : Machine → Machine → Prop} [Kernel R] [Forgetful R] (pid : Nat) :
    Keeps R (LineShell.await pid) := .await_of (.wait pid)

theorem awaitAll (pids : List Nat) : Keeps Calm (LineShell.awaitAll pids) := by
  induction pids with
  | nil => exact .pure []
  | cons pid pids ih => exact .bind (.await pid) fun _ => .bind ih fun _ => .pure _

theorem awaitStages (pids : List Nat) : Keeps Calm (LineShell.awaitStages pids) := by
  unfold LineShell.awaitStages
  split
  · exact .pure _
  · refine .bind (.await _) fun status => .bind (.debug _ _) fun _ => ?_
    split
    · exact .pure _
    · exact .await _

/-- A change of directory asks for the directory, changes it, and sets variables. -/
theorem changeDirectory_of {R : Machine → Machine → Prop} [Logs R] (hget : Keeps R Act.getcwd)
    (hchange : ∀ path, Keeps R (Act.chdir path))
    (hset : ∀ name ∈ ["OLDPWD".toList, "PWD".toList], ∀ value,
      Keeps R (Act.modifyProc fun p => { p with table := p.table.set name value }))
    (c : Command) : Keeps R (LineShell.changeDirectory c) := by
  refine .bind .proc fun p => ?_
  split
  · exact .bind (.debug _ _) fun _ => .pure _
  · refine .bind hget fun previous => .bind (.attempt (hchange _)) fun r => ?_
    split
    · exact .bind (.debug _ _) fun _ => .pure _
    · exact .throw _
    · refine .bind (hset _ (by simp) _) fun _ => .bind hget fun current => ?_
      refine .bind (hset _ (by simp) _) fun _ => .bind hget fun here => ?_
      exact .bind (.debug _ _) fun _ => .pure _

theorem changeDirectory (c : Command) : Keeps Calm (LineShell.changeDirectory c) :=
  .changeDirectory_of .getcwd .chdir (fun _ _ _ => .modifyProc fun _ => rfl) c

end Act.Keeps

/-! ### What programs do -/

section Programs

variable {R : Machine → Machine → Prop} [Moves R]

theorem Machine.emit_keeps (m : Machine) {chunks : List (Nat × Bytes)}
    (h : ∀ chunk ∈ chunks, chunk.1 = 1 ∨ chunk.1 = 2) : R m (m.emit chunks).2 := by
  induction chunks generalizing m with
  | nil => exact Frame.refl m
  | cons chunk chunks ih =>
    obtain ⟨fd, bs⟩ := chunk
    obtain ⟨hfd, hchunks⟩ := List.forall_mem_cons.1 h
    unfold emit
    split
    · next m' hw => exact Frame.trans (Moves.write hfd hw) (ih m' hchunks)
    · exact Frame.refl m

theorem Machine.emit_output (m : Machine) (bs : Bytes) : R m (m.emit [(1, bs)]).2 :=
  m.emit_keeps (by simp)

theorem Program.mem_alternate (words : List Text) :
    ∀ chunk ∈ alternate words, chunk.1 = 1 ∨ chunk.1 = 2 := by
  fun_induction alternate words with
  | case1 => simp
  | case2 a => simp
  | case3 a b rest ih => simpa using ih

/-- The first line is a beginning. -/
theorem firstLine_prefix (bs : Bytes) : firstLine bs <+: bs := by
  refine ⟨(bs.dropWhile (· ≠ 10)).drop 1, ?_⟩
  unfold firstLine
  rw [List.append_assoc, List.take_append_drop, List.takeWhile_append_dropWhile]

theorem Program.filter_keeps {part : Bytes → Bytes} (hpart : ∀ left, part left <+: left) (m : Machine)
    (render : Bytes → Bytes) : R m (filter m part render).2 := by
  unfold filter
  split
  · exact Frame.refl m
  · next h => exact Frame.trans (Moves.read hpart h) (Machine.emit_output _ _)

/-- A program that runs only reads and writes. -/
theorem Program.run_keeps (p : Program) (args : List Text) (m : Machine) : R m (p.run args m).2 := by
  cases p with
  | cat => exact filter_keeps List.prefix_refl m _
  | count => exact filter_keeps List.prefix_refl m _
  | head => exact filter_keeps firstLine_prefix m _
  | echo => exact m.emit_output _
  | err => exact m.emit_keeps (by simp)
  | both => exact m.emit_keeps (mem_alternate _)
  | env => exact m.emit_output _
  | args => exact m.emit_output _
  | pwd => exact m.emit_output _
  | fds => exact m.emit_output _
  | succeed => exact Frame.refl m
  | fail => exact Frame.refl m
  | status => exact Frame.refl m
  | die => exact Frame.refl m
  | raw => exact Frame.refl m

end Programs

/-- The program that a process finds under a name. -/
def findProgram (table : Table) (file : Text) (m : Machine) :
    Except Errno ((Place × Program) × Machine) :=
  (searchProgram m.world.files m.proc.cwd none (candidates table file) .noEntry).map
    fun found => (found, m)

/-- To find a program changes nothing. -/
theorem findProgram_eq_ok {table : Table} {file : Text} {m m' : Machine} {found : Place × Program}
    (h : findProgram table file m = .ok (found, m')) : m' = m := by
  unfold findProgram at h
  cases hs : searchProgram m.world.files m.proc.cwd none (candidates table file) .noEntry with
  | error e =>
    rw [hs] at h
    exact nomatch (h : Except.error e = _)
  | ok found' =>
    rw [hs] at h
    exact (Prod.mk.inj (Except.ok.inj h)).2.symm

/-- What a process does once it was answered which program it is to become: it enters that one,
which runs to its end. -/
def Act.enter (p : Proc) (argv : List Text) : Except Errno (Place × Program) → Act (Except Errno Nat)
  | .error e => return .error e
  | .ok (_, program) => do
    note (.entered p argv)
    let raw ← runImage program argv.tail
    called (.ended raw)
    return .ok raw

/-- How the journal tells of a call that looked for a program. -/
def execEvent (file : Text) (argv : List Text) (r : Except Errno (Place × Program)) : Event :=
  .exec file argv (r.map (·.1.path))

theorem exec_eq (file : Text) (argv : List Text) (m : Machine) :
    exec file argv m = (do
      refuse (imageFault? file argv m.proc.table)
      enter m.proc argv
        (← call .exec (execEvent file argv) (findProgram m.proc.table file))) m := rfl

/-! ### Actions that enter programs -/

namespace Wires

variable {α β : Type} {t u v : Descriptors} {w : World} {leaves left right : List Leaf}
  {a : Act α} {f : α → Act β} {m : Machine}

theorem bind_still (ha : Wires t w leaves (a.after m).world) (hf : ∀ x, Keeps Still (f x)) :
    Wires t w leaves ((a >>= f).after m).world := by
  rcases after_bind_cases a f m with ⟨x, -, hb⟩ | ⟨e, -, hb⟩
  · rw [hb]
    exact .trans_still ha (hf x _)
  · rwa [hb]

/-- One action after the other, each with the leaves of its side of a pair. -/
theorem pair_bind {op : Operator} (own : Option Nat) (h₁ : w.Still m.world)
    (ha : Wires u m.world left (a.after m).world)
    (hf : ∀ x m', a m = .ok x m' → Wires v m'.world right ((f x).after m').world)
    (hown : ∀ n, own = some n → w.channels.length ≤ n ∧ n < m.world.channels.length)
    (hu : ∀ channel : Way → Option Nat, channel [] = own → Sided t m.world channel op false u)
    (hv : ∀ channel : Way → Option Nat, channel [] = own → Sided t m.world channel op true v) :
    Wires t w (joinLeaves op left right) ((a >>= f).after m).world := by
  rcases after_bind_cases a f m with ⟨x, hr, hb⟩ | ⟨e, -, hb⟩
  · rw [hb]
    exact .pair h₁ ha (hf x _ hr) hown hu hv
  · rw [hb]
    exact .pair h₁ ha (.of_still (.refl _)) hown hu hv

end Wires

namespace Act

variable {α β : Type}

/-- In a process with descriptors `s`, an action enters programs of some leaves at most, wired
relative to descriptors `u`. -/
def Enters (s u : Descriptors) (leaves : List Leaf) (a : Act α) : Prop :=
  ∀ m, m.proc.fds = s → Wires u m.world leaves (a.after m).world

namespace Enters

variable {s u : Descriptors} {leaves : List Leaf}

theorem of_still {a : Act α} (h : Keeps Still a) : Enters s u leaves a :=
  fun m _ => .of_still (h m)

theorem calm_bind {a : Act α} {f : α → Act β} (ha : Keeps Calm a)
    (hf : ∀ x, Enters s u leaves (f x)) : Enters s u leaves (a >>= f) := by
  intro m hm
  have h := ha m
  rcases after_bind_cases a f m with ⟨x, -, hb⟩ | ⟨e, -, hb⟩
  · rw [hb]
    exact .still_trans h.still (hf x _ (h.fds.trans hm))
  · rw [hb]
    exact .of_still h.still

theorem bind_still {a : Act α} {f : α → Act β} (ha : Enters s u leaves a)
    (hf : ∀ x, Keeps Still (f x)) : Enters s u leaves (a >>= f) :=
  fun m hm => .bind_still (ha m hm) hf

theorem attempt {a : Act α} (h : Enters s u leaves a) : Enters s u leaves (Act.attempt a) := by
  intro m hm
  rw [after_attempt]
  exact h m hm

/-- What a child enters, its maker's run enters: the child's descriptors are a copy. -/
theorem runAs {pid : Nat} {child : Act Nat} (h : Enters s u leaves child) :
    Enters s u leaves (Act.runAs pid child) := by
  intro m hm
  have hw := h { m with proc.pid := pid } hm
  unfold after at hw ⊢
  unfold Act.runAs
  cases hc : child { m with proc.pid := pid } with
  | ok raw after =>
    rw [hc] at hw
    exact .trans_still hw ⟨.of_eq rfl rfl rfl rfl, rfl⟩
  | error e after =>
    rw [hc] at hw
    exact .trans_still hw ⟨.of_eq rfl rfl rfl rfl, rfl⟩

theorem fork {child : Act Nat} (h : Enters s u leaves child) :
    Enters s u leaves (Act.fork child) := by
  refine calm_bind (.call fun m x m' h => ?_) fun r => calm_bind (.answer _ r) fun pid => ?_
  · obtain ⟨-, rfl⟩ := Prod.mk.inj (Except.ok.inj h)
    exact Kernel.world ⟨.of_eq rfl rfl rfl rfl, rfl⟩
  · exact bind_still (runAs h) fun _ => .pure pid

theorem childLife {work : Act ChildEnd} (h : Enters s u leaves work) :
    Enters s u leaves (LineShell.childLife work) := by
  refine calm_bind (.called _) fun _ => bind_still (attempt h) fun r => ?_
  split
  · exact .pure _
  · exact .bind (.called _) fun _ => .pure _
  · exact .bind .proc fun _ => .bind (.error _ _ _) fun _ => .bind (.called _) fun _ => .pure _

theorem spawn {work : Act ChildEnd} (h : Enters s u leaves work) :
    Enters s u leaves (LineShell.spawn work) :=
  bind_still (fork (childLife h)) fun _ =>
    .bind (.tally _) fun _ => .bind (.debug _ _) fun _ => .pure _

end Enters

/-! ### Descriptors that are given back -/

namespace Keeps

theorem fork (child : Act Nat) : Keeps Bound (Act.fork child) := by
  refine .bind (.call fun m x m' h => ?_) fun r => .bind (.answer _ r) fun pid => ?_
  · obtain ⟨-, rfl⟩ := Prod.mk.inj (Except.ok.inj h)
    exact Kernel.world ⟨.of_eq rfl rfl rfl rfl, rfl⟩
  · refine .bind (fun m => ?_) fun _ => .pure pid
    unfold after Act.runAs
    cases child { m with proc.pid := pid } <;> rfl

/-- Whatever a child does to its descriptors, its maker's stay. -/
theorem spawn (work : Act ChildEnd) : Keeps Bound (LineShell.spawn work) := .spawn_of (.fork _)

end Keeps

/-- An action that answers only with the descriptors as they were. -/
def Restores (a : Act α) : Prop := ∀ m x m', a m = .ok x m' → m'.proc.fds = m.proc.fds

theorem Restores.of_bound {a : Act α} (h : Keeps Bound a) : Restores a := by
  intro m x m' hm
  have hb := h m
  rwa [after_of_ok hm] at hb

theorem Restores.bind {a : Act α} {f : α → Act β} (ha : Restores a) (hf : ∀ x, Restores (f x)) :
    Restores (a >>= f) := by
  intro m y m' h
  obtain ⟨x, m₁, h₁, h₂⟩ := bind_eq_ok.1 h
  exact (hf x m₁ y m' h₂).trans (ha m x m₁ h₁)

/-- What is shown of a tree that stands anywhere: it enters programs of its leaves at most, wired
relative to the descriptors of its process, and these it gives back. -/
structure Runs (leaves : List Leaf) (a : Act α) : Prop where
  /-- What it enters is wired. -/
  enters : ∀ t, t.Standard → Enters t t leaves a
  /-- It gives the descriptors back. -/
  restores : Restores a

namespace Runs

variable {leaves left right : List Leaf}

theorem of_calm {a : Act α} (h : Keeps Calm a) : Runs leaves a :=
  ⟨fun _ _ => .of_still h.still, .of_bound h.bound⟩

theorem calm_bind {a : Act α} {f : α → Act β} (ha : Keeps Calm a) (hf : ∀ x, Runs leaves (f x)) :
    Runs leaves (a >>= f) :=
  ⟨fun t ht => .calm_bind ha fun x => (hf x).enters t ht,
    .bind (.of_bound ha.bound) fun x => (hf x).restores⟩

theorem bind_calm {a : Act α} {f : α → Act β} (ha : Runs leaves a) (hf : ∀ x, Keeps Calm (f x)) :
    Runs leaves (a >>= f) :=
  ⟨fun t ht => .bind_still (ha.enters t ht) fun x => (hf x).still,
    .bind ha.restores fun x => .of_bound (hf x).bound⟩

end Runs

end Act

end LineShell
