import LineShell.Proofs.PipeSides
import LineShell.Proofs.Reaping
import LineShell.Proofs.Unhindered

/-!
# Commands that run as children

A command that is neither an assignment nor built in has a child made for it, which is waited for.
Where the plan is done with both calls, the status is told by how the work of the child ends, and
all that can be seen of the run, routine aside, is what can be seen of that work. The running
process itself counts the two calls and remembers the status, and is otherwise as it was.

## The model

* `rawOf` is the raw wait status of a process by what its work comes to. `Exits` says that the
  work leaves the process without a program, with which exit code.
* `Childless` is the frame in which no number is given away and the same processes have ended.
* `Served` is the run of such a command, with the machines behind the making of its child and
  behind the wait for it.

## What is proved

* A command is served where the plan is done with making and waiting (`exists_served_of_clear`),
  or where no call hinders its run (`exists_served_of_free`).
* Behind the work of the child nothing is done but what concerns its end (`Served.keeps`), and
  what is seen of the work is seen of the run (`Served.shows`). The process counts a child made
  and waited for (`Served.proc`), and the child is not left (`Served.ended`).
* A command whose child becomes no program answers with the exit code of the child
  (`execute_of_exits`).

What the child does for its command is the matter of the modules that use this one.
-/

namespace LineShell

open Act

/-! ### How the work of a child ends -/

/-- The raw wait status of a process, by what its work comes to. -/
def rawOf : EStateM.Result Failure Machine ChildEnd → Nat
  | .ok (.program raw) _ => raw
  | .ok (.exit code) _ => exitedRaw code
  | .error _ _ => exitedRaw 1

theorem Lived.raw_eq_rawOf {work : Act ChildEnd} {raw : Nat} {m m' : Machine} (h : Lived work m raw m') :
    raw = rawOf (work m) := by
  cases h with
  | program h => rw [h, rawOf]
  | exit h => rw [h, rawOf]
  | error h _ => rw [h, rawOf]

/-- The work of a child leaves it without a program: the exit code that comes of it. -/
inductive Exits : EStateM.Result Failure Machine ChildEnd → Nat → Machine → Prop where
  /-- The child is to exit with the code. -/
  | exit {code : Nat} {m : Machine} : Exits (.ok (.exit code) m) code m
  /-- The work failed. -/
  | failure {e : Failure} {m : Machine} : Exits (.error e m) 1 m

theorem Exits.rawOf_eq {r : EStateM.Result Failure Machine ChildEnd} {code : Nat} {k : Machine}
    (h : Exits r code k) : rawOf r = exitedRaw code := by
  cases h <;> rfl

theorem Exits.after {work : Act ChildEnd} {code : Nat} {m k : Machine} (h : Exits (work m) code k) :
    work.after m = k := by
  unfold Act.after
  generalize work m = r at h
  cases h <;> rfl

/-! ### The run of a command -/

/-- No process was made, ended or waited for. -/
structure Childless (m m' : Machine) : Prop where
  /-- No number was given away. -/
  nextPid : m'.world.nextPid = m.world.nextPid
  /-- The same processes have ended. -/
  ended : m'.world.ended = m.world.ended

instance : Frame Childless where
  refl _ := ⟨rfl, rfl⟩
  trans hab hbc := ⟨hbc.nextPid.trans hab.nextPid, hbc.ended.trans hab.ended⟩

instance : Forgetful Childless where
  plain h := ⟨h.nextPid, h.ended⟩
  same _ := ⟨rfl, rfl⟩

theorem Tree.told_childless (t : Tree) (level : Int) (m : Machine) : Childless m (t.told level m) :=
  t.told_of (fun _ _ _ => ⟨rfl, rfl⟩) level m

/-- A child was made for a command, ended with a raw wait status and was waited for, and the status that
its end stands for was kept. -/
structure Served (c : Command) (raw : Nat) (m m₁ m₂ m' : Machine) : Prop where
  /-- The child was made. -/
  spawned : spawn (runChild c) m = .ok m.world.nextPid m₁
  /-- It lived to its end. -/
  birth : Birth (runChild c) raw m m₁
  /-- It was waited for. -/
  awaited : await m.world.nextPid m₁ = .ok (Ending.ofRaw raw).status m₂
  /-- The status was kept. -/
  kept : remember (Ending.ofRaw raw).status m₂ = .ok (Ending.ofRaw raw).status m'

section Runs

variable {rules : Rules} {c : Command} {m : Machine} (mark : Option Nat) (level : Int)
  (hkind : rules.kind (c.verb.expand m.proc.table) = .external)
include hkind

/-- A child that is made and waited for serves its command. -/
theorem served_of_awaited {raw : Nat} {m₁ m₂ : Machine}
    (hspawn : spawn (runChild c) ((Tree.leaf mark c).told level m)
      = .ok ((Tree.leaf mark c).told level m).world.nextPid m₁)
    (hbirth : Birth (runChild c) raw ((Tree.leaf mark c).told level m) m₁)
    (hawait : await ((Tree.leaf mark c).told level m).world.nextPid m₁
      = .ok (Ending.ofRaw raw).status m₂) :
    ∃ m', Served c raw ((Tree.leaf mark c).told level m) m₁ m₂ m' ∧
      execute rules (.leaf mark c) level m = .ok (Ending.ofRaw raw).status m' := by
  obtain ⟨m', hremember⟩ := exists_remember (Ending.ofRaw raw).status m₂
  refine ⟨m', ⟨hspawn, hbirth, hawait, hremember⟩, ?_⟩
  rw [execute_of_spawn mark level hkind hspawn, bind_eq, hawait]
  exact hremember

/-- A command has its child made and waited for, where the plan is done with both. -/
theorem exists_served_of_clear (hfork : m.world.Clear .fork) (hwait : m.world.Clear .wait)
    (hsane : m.world.Sane) :
    ∃ raw m₁ m₂ m', Served c raw ((Tree.leaf mark c).told level m) m₁ m₂ m' ∧
      execute rules (.leaf mark c) level m = .ok (Ending.ofRaw raw).status m' := by
  have hproceeds : Proceeds m ((Tree.leaf mark c).told level m) := Tree.told_proceeds _ level m
  have hsane' : ((Tree.leaf mark c).told level m).world.Sane := (Tree.told_followed _ level m).sane hsane
  obtain ⟨raw, m₁, hspawn, hbirth⟩ := spawn_of_clear (hproceeds.onward.clear hfork) (runChild c)
  have hborn : Proceeds _ m₁ := (Keeps.spawn_proceeds (.runChild_proceeds c)).of_ok hspawn
  have honward : Onward m m₁ := (hproceeds.trans hborn).onward
  obtain ⟨m₂, hawait⟩ :=
    await_of_clear (honward.clear hwait) (hbirth.find? (.runChild_followed c) hsane')
  exact ⟨raw, m₁, m₂, served_of_awaited mark level hkind hspawn hbirth hawait⟩

/-- A command has its child made and waited for, where no call hinders its run. -/
theorem exists_served_of_free
    (hfree : ∀ e ∈ m.since ((execute rules (.leaf mark c) level).after m), ¬e.Hinders)
    (hsane : m.world.Sane) :
    ∃ raw m₁ m₂ m', Served c raw ((Tree.leaf mark c).told level m) m₁ m₂ m' ∧
      execute rules (.leaf mark c) level m = .ok (Ending.ofRaw raw).status m' := by
  have hfollowed : Followed m ((Tree.leaf mark c).told level m) := Tree.told_followed _ level m
  have hbegan : Recorded m ((Tree.leaf mark c).told level m) := hfollowed.journal
  rcases spawn_cases (runChild c) ((Tree.leaf mark c).told level m) with
    ⟨e, hs⟩ | ⟨raw, m₁, hspawn, hbirth⟩
  · -- no child could be made, of which the journal tells
    have hrun : execute rules (.leaf mark c) level m
        = (withoutChild c e >>= remember) (((Tree.leaf mark c).told level m).barren e) := by
      rw [execute_external mark level hkind, bind_eq, bind_eq]
      unfold runExternal
      rw [bind_eq, attempt_of_error hs]
      rfl
    have hrest : Recorded _ ((execute rules (.leaf mark c) level).after m) :=
      after_eq_of_eq hrun ▸ Keeps.bind (Keeps.withoutChild c e) (fun s => .remember s) _
    have hcounted : Recorded m (((Tree.leaf mark c).told level m).counted .fork) := hbegan
    refine absurd ?_ (hfree _ (hrest.mem_first (Machine.mem_since_note hcounted _)))
    simp [Entry.Hinders, Entry.failed?, Event.failed?]
  · obtain ⟨hmade, -⟩ := hbirth.followed (.runChild_followed c)
    have hborn : Recorded m m₁ := hbegan.trans hmade.journal
    rcases await_cases ((Tree.leaf mark c).told level m).world.nextPid m₁ with
      ⟨e, hawait, -⟩ | ⟨raw', m₂, hfound, -, hawait⟩
    · rw [after_eq_of_eq (execute_of_spawn mark level hkind hspawn), after_bind, hawait] at hfree
      have hcounted : Recorded m (m₁.counted .wait) := hborn
      refine absurd ?_ (hfree _ (Machine.mem_since_note hcounted _))
      simp [Entry.Hinders, Entry.failed?, Event.failed?]
    · have hsame := hfound.symm.trans (hbirth.find? (.runChild_followed c) (hfollowed.sane hsane))
      obtain ⟨-, rfl⟩ := Prod.mk.inj (Option.some.inj hsame)
      exact ⟨raw', m₁, m₂, served_of_awaited mark level hkind hspawn hbirth hawait⟩

end Runs

theorem tellChild_proc {pid n : Nat} {m m' : Machine} (h : tellChild pid m = .ok n m') :
    m'.proc = { m.proc with stats := { m.proc.stats with fork := m.proc.stats.fork + 1 } } := by
  obtain ⟨_, m₁, htally, h⟩ := bind_eq_ok.1 h
  obtain ⟨_, m₂, hlog, h⟩ := bind_eq_ok.1 h
  obtain ⟨-, rfl⟩ := EStateM.Result.ok.inj h
  rw [debug_idle hlog, ← (EStateM.Result.ok.inj htally).2]

theorem tellEnd_proc {pid raw : Nat} {s : Status} {m m' : Machine} (h : tellEnd pid raw m = .ok s m') :
    m'.proc = { m.proc with stats := { m.proc.stats with wait := m.proc.stats.wait + 1 } } := by
  unfold tellEnd at h
  generalize Ending.ofRaw raw = ending at h
  obtain ⟨_, m₁, htally, h⟩ := bind_eq_ok.1 h
  have htallied : m₁.proc
      = { m.proc with stats := { m.proc.stats with wait := m.proc.stats.wait + 1 } } :=
    (EStateM.Result.ok.inj htally).2 ▸ rfl
  rw [← htallied]
  have htold {message : Text} (h : (do debug launcher message; return ending.status) m₁ = .ok s m') :
      m'.proc = m₁.proc := by
    obtain ⟨_, m₂, hlog, h⟩ := bind_eq_ok.1 h
    obtain ⟨-, rfl⟩ := EStateM.Result.ok.inj h
    exact debug_idle hlog
  cases ending with
  | exited code => exact htold h
  | killed signal => exact htold h
  | stopped => rw [← (EStateM.Result.ok.inj h).2]

theorem await_proc {pid : Nat} {s : Status} {m m' : Machine} (h : await pid m = .ok s m') :
    m'.proc = { m.proc with stats := { m.proc.stats with wait := m.proc.stats.wait + 1 } } := by
  obtain ⟨raw, m₁, hwait, htold⟩ := bind_eq_ok.1 (await_eq pid ▸ h)
  rw [tellEnd_proc htold]
  rcases wait_cases pid m with ⟨e, hw, -⟩ | ⟨raw', -, hw⟩
  · exact nomatch hwait.symm.trans hw
  · obtain ⟨-, rfl⟩ := EStateM.Result.ok.inj (hwait.symm.trans hw)
    rfl

namespace Served

variable {c : Command} {raw : Nat} {m m₁ m₂ m' : Machine} (h : Served c raw m m₁ m₂ m')
include h

theorem raw_eq : raw = rawOf (runChild c m.born) := by
  obtain ⟨dead, hlived, -⟩ := h.birth
  exact hlived.raw_eq_rawOf

/-- Behind the work of the child nothing is done but what concerns its end. -/
theorem keeps {R : Machine → Machine → Prop} [Tallies R]
    (hexited : ∀ (a : Machine) code, R a (a.note (.called a.proc.pid (.exited code))))
    (houtlived : ∀ (a b : Machine) raw, R a (b.outlived a.world raw))
    (hwait : ∀ pid, Keeps R (wait pid)) : R ((runChild c).after m.born) m' := by
  obtain ⟨r, raw', hmade⟩ := spawn_eq_ok h.spawned
  have hended : R ((runChild c).after m.born) ((conclude r).after ((runChild c).after m.born)) :=
    Keeps.conclude_of hexited r _
  have hmaker : R (m.outlived ((conclude r).after ((runChild c).after m.born)).world raw') m₁ :=
    (Keeps.tellChild _).of_ok hmade
  have hwaited : R m₁ m₂ := (Keeps.await_of (hwait _)).of_ok h.awaited
  have hkept : R m₂ m' := (Keeps.remember _).of_ok h.kept
  exact Frame.trans hended (Frame.trans (houtlived _ m raw')
    (Frame.trans hmaker (Frame.trans hwaited hkept)))

/-- The world grows from the end of the work of the child on. -/
theorem grows : ((runChild c).after m.born).world.Grows m'.world :=
  (h.keeps (R := Still) (fun a _ => a.world.still_note rfl) (fun _ _ _ => ⟨.of_eq rfl rfl rfl rfl, rfl⟩)
    .wait).grows

theorem recorded : Recorded ((runChild c).after m.born) m' :=
  h.keeps (fun _ _ => ⟨[_], rfl⟩) (fun _ _ _ => List.prefix_refl _) fun _ =>
    .wait_of (fun _ _ => ⟨[_], rfl⟩) fun _ _ => List.prefix_refl _

/-- What is seen of the work of the child is seen of the run. -/
theorem shows {β : Type} {f : Entry → Option β} [Overlooks f] {os : List β}
    (hwork : Shows f os m.born ((runChild c).after m.born)) : Shows f os m m' := by
  have hforked : Shows f [] m m.forked := .routine rfl rfl
  have hborn : Shows f [] m.forked m.born := .routine rfl rfl
  have hrest : Shows f [] ((runChild c).after m.born) m' :=
    h.keeps (fun _ _ => .routine rfl rfl) (fun _ _ _ => .of_eq rfl) wait_unseen
  simpa using hforked.trans (hborn.trans (hwork.trans hrest))

/-- The running process counts a child that it made and waited for, and remembers the status. -/
theorem proc {n : Int} (hstatus : (Ending.ofRaw raw).status = .code n) : m'.proc = { m.proc with
    stats := { m.proc.stats with fork := m.proc.stats.fork + 1, wait := m.proc.stats.wait + 1 }
    commandLast := n } := by
  obtain ⟨r, raw', hmade⟩ := spawn_eq_ok h.spawned
  have hkept : m'.proc = { m₂.proc with commandLast := n } := by
    have hremember := h.kept
    rw [hstatus] at hremember
    exact (EStateM.Result.ok.inj hremember).2 ▸ rfl
  rw [hkept, await_proc h.awaited, tellChild_proc hmade]
  rfl

/-- The child is not left to be waited for. -/
theorem ended (hsane : m.world.Sane) : m'.world.ended = m.world.ended := by
  obtain ⟨dead, hlived, hq⟩ := h.birth
  have hwork : Keeps Childless (runChild c) := .runChild_of (fun _ _ hr => ⟨hr.plain.nextPid, hr.plain.ended⟩)
    (fun _ _ => ⟨rfl, rfl⟩) (fun _ _ => ⟨rfl, rfl⟩) c
  have hdead : dead.world.ended = m.world.ended :=
    (hlived.after (R := Childless) fun _ _ => ⟨rfl, rfl⟩).ended.trans (hwork m.born).ended
  have hmade : m₁.world.ended = m.world.ended ++ [(m.world.nextPid, raw)] := by
    rw [hq.plain.ended, ← hdead]
    rfl
  have hkept : Quiet m₂ m' := (Keeps.remember _).of_ok h.kept
  obtain ⟨-, hwaited⟩ := await_eq_ok (h.birth.find? (.runChild_followed c) hsane) h.awaited
  rw [hkept.plain.ended, hwaited, hmade, List.filter_append, List.filter_eq_self.2 fun e he => ?_]
  · simp
  · have hlt : e.1 < m.world.nextPid := hsane e he
    simpa using Nat.ne_of_lt hlt

end Served

/-- A command whose child becomes no program answers with the exit code of the child, and what is seen of
the run is what is seen of the work of the child. -/
theorem execute_of_exits {β : Type} {f : Entry → Option β} [Overlooks f] {os : List β} {rules : Rules}
    {c : Command} {m k : Machine} {code : Nat} (mark : Option Nat) (level : Int)
    (hkind : rules.kind (c.verb.expand m.proc.table) = .external)
    (hfork : m.world.Clear .fork) (hwait : m.world.Clear .wait) (hsane : m.world.Sane)
    (hexits : Exits (runChild c ((Tree.leaf mark c).told level m).born) code k)
    (hshows : Shows f os ((Tree.leaf mark c).told level m).born k) (hcode : code < 256) :
    ∃ m', execute rules (.leaf mark c) level m = .ok (.code code) m' ∧ Shows f os m m' := by
  obtain ⟨raw, m₁, m₂, m', hserved, hrun⟩ := exists_served_of_clear mark level hkind hfork hwait hsane
  have hbegan : Shows f [] m ((Tree.leaf mark c).told level m) :=
    Tree.told_of (R := Shows f []) (fun _ _ _ => .routine rfl rfl) _ level m
  rw [hserved.raw_eq, hexits.rawOf_eq, status_ofRaw_exitedRaw hcode] at hrun
  exact ⟨m', hrun, hbegan.trans (hserved.shows (hexits.after ▸ hshows))⟩

end LineShell
