import LineShell.Proofs.Contexts
import LineShell.Proofs.Doings
import LineShell.Proofs.Order
import LineShell.Proofs.Reaping

/-!
# When a channel or a child cannot be made

Commands, pipes and parallel pairs make what they need before they wait for it. Where the system
refuses them a channel or a child, the running process says so in one line, tries nothing further,
closes and waits for what it has, and answers with 1; the tree around goes on as it does behind
whatever failed. This is so whichever of the calls is refused, at any depth and in any process, as
long as the line can be written and the calls that close and wait do not fail as well: nothing is
prepared for those.

## The model

* A `Resource` is a channel or a child. `Entry.refusal?` reads off a journal that one was refused,
  and `Entry.Strands` that a call failed by which a process closes a descriptor or waits for a
  child.
* Three things can become of an action. It is `Smooth`: its process was refused nothing. It
  `Trips`: it was broken off by a call that strands it. Or it `GivesUp` on what was `Made` before
  the refusal: it tells the user in one line, closes the ends of its channel, waits for its child,
  and fails. `Copes` is that one of the three is so.
* `Made.doings` lists all that such a process does, call by call, with the lines that the user is
  shown. What the process of a node does is told apart from what its children do by their numbers.
* `Tree.Makes` are the nodes that need children: external commands, pipes and parallel pairs.

## What is proved

* The children of a pair are made, or the process is refused one of them and has made one at most,
  which has ended (`births_does`).
* Whatever a pipe or a parallel pair has made when it is refused a child, it gives up or trips
  (`finishPipe_givesUp`, `finishParallel_givesUp`).
* So whichever calls fail, the process that runs a node copes (`execute_copes`), and where it
  gives up the node fails and the tree around it goes on (`execute_of_failure`).

The counterexamples show that the conditions are needed: a child that cannot be waited for, a line
that cannot be written, and a stream of the first side that cannot be bound each come to something
else.
-/

namespace LineShell

open Act

/-! ### Refusals -/

/-- What a process asks the system for in order to run commands and pairs. -/
inductive Resource where
  /-- A channel. -/
  | channel
  /-- A child. -/
  | child
  deriving DecidableEq, Repr

/-- What the user is told a resource is. -/
def Resource.name : Resource → Text
  | .channel => "pipe".toList
  | .child => "fork".toList

/-- The call for a resource was refused. -/
def Resource.refused (e : Errno) : Resource → Event
  | .channel => .pipe (.error e)
  | .child => .fork (.error e)

/-- The line that tells the user of a refusal. -/
def Resource.complaint (res : Resource) (e : Errno) : Text :=
  "tree_shell: ".toList ++ (res.name ++ ": ".toList ++ e.reason) ++ ['\n']

/-- The refusal that an event tells of. -/
def Event.refusal? : Event → Option (Resource × Errno)
  | .pipe (.error e) => some (.channel, e)
  | .fork (.error e) => some (.child, e)
  | _ => none

/-- The refusal that a journal entry tells of. -/
def Entry.refusal? : Entry → Option (Resource × Errno)
  | .called _ event => event.refusal?
  | _ => none

@[simp] theorem Resource.refusal?_refused (res : Resource) (e : Errno) :
    (res.refused e).refusal? = some (res, e) := by
  cases res <;> rfl

/-- A call failed by which a process closes a descriptor or waits for a child. -/
def Entry.Strands (e : Entry) : Prop := e.failed? = some .close ∨ e.failed? = some .wait

instance (e : Entry) : Decidable e.Strands := inferInstanceAs (Decidable (_ ∨ _))

/-- Nothing but a refused call tells of a refusal. -/
theorem Entry.eq_refused {d : Entry} {pid : Nat} {res : Resource} {e : Errno}
    (hdoer : d.doer? = some pid) (h : d.refusal? = some (res, e)) : d = .called pid (res.refused e) := by
  cases d with
  | called p event =>
    obtain rfl : p = pid := Option.some.inj hdoer
    replace h : event.refusal? = some (res, e) := h
    unfold Event.refusal? at h
    split at h
    · obtain ⟨rfl, rfl⟩ := Prod.mk.inj (Option.some.inj h)
      rfl
    · obtain ⟨rfl, rfl⟩ := Prod.mk.inj (Option.some.inj h)
      rfl
    · exact nomatch h
  | _ => exact nomatch h

/-- The running process was refused nothing. -/
structure Smooth (m m' : Machine) : Prop where
  /-- The journal tells of no refusal. -/
  journal : ∃ es, m'.world.journal = m.world.journal ++ es ∧
    ∀ e ∈ doings m.proc.pid es, e.refusal? = none
  /-- The running process has its number. -/
  pid : m'.proc.pid = m.proc.pid

namespace Smooth

theorem of_does {ds : List Entry} {m m' : Machine} (h : Does ds m m')
    (hds : ∀ d ∈ ds, d.refusal? = none) : Smooth m m' := by
  obtain ⟨es, hes, rfl⟩ := h.journal
  exact ⟨⟨es, hes, hds⟩, h.pid⟩

theorem of_eq {m m' : Machine} (hj : m'.world.journal = m.world.journal)
    (hpid : m'.proc.pid = m.proc.pid) : Smooth m m' := .of_does (.of_eq hj hpid) (by simp)

theorem trans {a b c : Machine} (hab : Smooth a b) (hbc : Smooth b c) : Smooth a c := by
  obtain ⟨es, hes, hnone⟩ := hab.journal
  obtain ⟨fs, hfs, hnone'⟩ := hbc.journal
  refine ⟨⟨es ++ fs, by rw [hfs, hes, List.append_assoc], fun e he => ?_⟩, hbc.pid.trans hab.pid⟩
  rw [doings_append] at he
  rcases List.mem_append.1 he with he | he
  · exact hnone e he
  · exact hnone' e (hab.pid ▸ he)

theorem note (m : Machine) {e : Entry} (h : e.refusal? = none) : Smooth m (m.note e) := by
  refine ⟨⟨[e], rfl, fun d hd => ?_⟩, rfl⟩
  obtain rfl := List.mem_singleton.1 (mem_doings.1 hd).1
  exact h

theorem not_mem {m m' : Machine} (h : Smooth m m') {d : Entry}
    (hd : d ∈ doings m.proc.pid (m.since m')) : d.refusal? = none := by
  obtain ⟨es, hes, hnone⟩ := h.journal
  rw [Machine.since_eq hes] at hd
  exact hnone d hd

end Smooth

instance : Frame Smooth := ⟨fun _ => .of_eq rfl rfl, .trans⟩

instance : Mild Smooth where
  mute h := .of_eq h.journal rfl
  utter {m e} h := .note m (by cases e <;> first | rfl | exact h.elim)

instance : Heedless Smooth := ⟨fun h => .of_eq rfl h.pid⟩

namespace Act

variable {α β : Type}

theorem Calls.smooth {a : Act α} {event : Except Errno α → Event} (h : Calls a event)
    (hevent : ∀ r, (event r).refusal? = none) : Keeps Smooth a :=
  h.keeps fun r {_ _} hnoted =>
    .of_does (.of_noted hnoted) (by simpa [Entry.refusal?] using hevent r)

theorem closeAll_smooth (fds : List Nat) : Keeps Smooth (closeAll fds) :=
  .forM fun fd _ => (close_calls fd).smooth fun _ => rfl

theorem await_smooth (pid : Nat) : Keeps Smooth (await pid) :=
  .await_of ((wait_calls pid).smooth fun _ => rfl)

/-! ### Calls that strand a process -/

/-- An action is broken off by a call with which the running process closes or waits. -/
def Trips (a : Act α) (m : Machine) : Prop :=
  ∃ failure n ds, a m = .error failure n ∧ Does ds m n ∧ ∃ d ∈ ds, d.Strands

namespace Trips

theorem bind {a : Act α} {f : α → Act β} {m : Machine} (h : a.Trips m) : (a >>= f).Trips m := by
  obtain ⟨failure, n, ds, ha, hds, hstrands⟩ := h
  exact ⟨failure, n, ds, by rw [bind_eq, ha], hds, hstrands⟩

/-- An action trips if what is left of it trips. -/
theorem behind {a b : Act α} {m n : Machine} {ds : List Entry} (hb : b.Trips n) (h : a m = b n)
    (hds : Does ds m n) : a.Trips m := by
  obtain ⟨failure, n', ds', hfail, hds', d, hd, hstrands⟩ := hb
  exact ⟨failure, n', ds ++ ds', h.trans hfail, hds.trans hds', d, List.mem_append_right _ hd, hstrands⟩

/-- The process did something that strands it. -/
theorem exists_strands {a : Act α} {m : Machine} (h : a.Trips m) :
    ∃ d ∈ doings m.proc.pid (m.since (a.after m)), d.Strands := by
  obtain ⟨failure, n, ds, ha, hds, hstrands⟩ := h
  rwa [after_of_error ha, hds.since]

theorem of_noted {a : Act α} {m n : Machine} {event : Event} {failure : Failure}
    (ha : a m = .error failure n) (h : Noted event m n)
    (hevent : event.failed? = some .close ∨ event.failed? = some .wait) : a.Trips m :=
  ⟨failure, n, _, ha, .of_noted h, _, List.mem_singleton_self _, hevent⟩

end Trips

/-- Descriptors are closed, or the process trips. -/
theorem closeAll_does (fds : List Nat) (m : Machine) :
    (closeAll fds).Trips m ∨ ∃ m', closeAll fds m = .ok () m' ∧
      Does (fds.map fun fd => .called m.proc.pid (.close fd (.ok ()))) m m' := by
  induction fds generalizing m with
  | nil => exact Or.inr ⟨m, rfl, .of_eq rfl rfl⟩
  | cons fd fds ih =>
    rcases close_calls fd m with ⟨_, m₁, hc, hnoted⟩ | ⟨failure, e, m₁, hc, hnoted⟩
    · have hrest : closeAll (fd :: fds) m = closeAll fds m₁ := by
        show (close fd >>= fun _ => closeAll fds) m = _
        rw [bind_eq, hc]
      rcases ih m₁ with htrips | ⟨m', hall, hdoes⟩
      · exact Or.inl (htrips.behind hrest (.of_noted hnoted))
      · rw [hnoted.pid] at hdoes
        exact Or.inr ⟨m', hrest.trans hall, (Does.of_noted hnoted).trans hdoes⟩
    · have htrips : (close fd).Trips m := .of_noted hc hnoted (Or.inl rfl)
      exact Or.inl (Trips.bind (f := fun _ => closeAll fds) htrips)

/-- A child that has ended is waited for, or the process trips. -/
theorem await_does {pid raw : Nat} {m : Machine}
    (hfound : m.world.ended.find? (·.1 == pid) = some (pid, raw)) :
    (await pid).Trips m ∨ ∃ s m', await pid m = .ok s m' ∧
      Does [.called m.proc.pid (.wait pid (.ok raw))] m m' := by
  rcases await_cases pid m with ⟨e, ha, -⟩ | ⟨raw', m', hfound', -, ha⟩
  · have hnoted : Noted (.wait pid (.error e)) m (m.unreaped pid e) := ⟨rfl, rfl, Nat.le_refl _⟩
    exact Or.inl (.of_noted ha hnoted (Or.inr rfl))
  · refine Or.inr ⟨_, m', ha, ?_⟩
    rw [await_eq] at ha
    obtain ⟨_, m₁, hw, hrest⟩ := bind_eq_ok.1 ha
    rcases wait_cases pid m with ⟨e, hw', -⟩ | ⟨raw'', hfound'', hw'⟩
    · exact nomatch hw.symm.trans hw'
    · obtain ⟨rfl, rfl⟩ := EStateM.Result.ok.inj (hw.symm.trans hw')
      obtain ⟨-, rfl⟩ := Prod.mk.inj (Option.some.inj (hfound.symm.trans hfound''))
      have hreaped : Noted (.wait pid (.ok raw)) m (m.reaped pid raw) := ⟨rfl, rfl, Nat.le_refl _⟩
      have htold : Does [] (m.reaped pid raw) m' := (Keeps.tellEnd pid raw).of_ok hrest
      exact (Does.of_noted hreaped).trans htold

end Act

/-! ### Giving up -/

/-- What a process has made for a command or a pair before it is refused a call. -/
structure Made where
  /-- The ends of a channel, if it has made one. -/
  channel : Option (Nat × Nat)
  /-- The number of a child with its raw wait status, if it has made one. -/
  child : Option (Nat × Nat)

namespace Made

/-- What the process did to make it. -/
def setUp (made : Made) (pid : Nat) : List Entry :=
  made.channel.toList.map (fun ends => .called pid (.pipe (.ok ends))) ++
    made.child.toList.map (fun kid => .called pid (.fork (.ok kid.1)))

/-- What the process does to leave nothing of it behind: it closes both ends of the channel, and waits
for the child. -/
def tornDown (made : Made) (pid : Nat) : List Entry :=
  (made.channel.toList.flatMap fun ends => [ends.1, ends.2]).map
      (fun fd => .called pid (.close fd (.ok ()))) ++
    made.child.toList.map (fun kid => .called pid (.wait kid.1 (.ok kid.2)))

theorem refusal?_of_mem {made : Made} {pid : Nat} {d : Entry}
    (h : d ∈ made.setUp pid ∨ d ∈ made.tornDown pid) : d.refusal? = none := by
  simp only [setUp, tornDown, List.mem_append, List.mem_map] at h
  rcases h with (⟨_, -, rfl⟩ | ⟨_, -, rfl⟩) | (⟨_, -, rfl⟩ | ⟨_, -, rfl⟩) <;> rfl

end Made

/-- What is left to a process that was refused a call: it tells the user in one line, leaves nothing of
what it has made behind, and fails. -/
def GivesUp (a : Act Status) (m : Machine) (file : Nat) (res : Resource) (e : Errno) (made : Made) :
    Prop :=
  ∃ m', a m = .ok .failure m' ∧
    Does (.wrote m.proc.pid file (encode (res.complaint e)) false :: made.tornDown m.proc.pid) m m'

section GivingUp

/-- The side of a pipe that was made is waited for, or the process trips. -/
theorem awaitStages_does {kid : Option (Nat × Nat)} {m : Machine}
    (hfound : ∀ k ∈ kid, m.world.ended.find? (·.1 == k.1) = some k) :
    (awaitStages (kid.toList.map (·.1))).Trips m ∨
      ∃ m', awaitStages (kid.toList.map (·.1)) m = .ok .failure m' ∧
        Does (kid.toList.map fun k => .called m.proc.pid (.wait k.1 (.ok k.2))) m m' := by
  cases kid with
  | none => exact Or.inr ⟨m, rfl, .of_eq rfl rfl⟩
  | some k =>
    rcases await_does (hfound k rfl) with htrips | ⟨s, m₁, hawait, hdoes⟩
    · exact Or.inl htrips.bind
    · let told := "Pipe left side finished with ".toList ++ s.shown ++ " (ignored)".toList
      obtain ⟨m', hlog, -⟩ := debug_quiet Operator.pipe.logger told m₁
      have hlogged : Does [] m₁ m' := (Keeps.debug _ _).of_ok hlog
      have hall : awaitStages [k.1] m = .ok .failure m' :=
        bind_eq_ok.2 ⟨s, m₁, hawait, bind_eq_ok.2 ⟨(), m', hlog, rfl⟩⟩
      exact Or.inr ⟨m', hall, hdoes.trans hlogged⟩

/-- The branch of a parallel pair that was made is waited for, or the process trips. -/
theorem awaitAll_does {kid : Option (Nat × Nat)} {m : Machine}
    (hfound : ∀ k ∈ kid, m.world.ended.find? (·.1 == k.1) = some k) :
    (awaitAll (kid.toList.map (·.1))).Trips m ∨
      ∃ ss m', awaitAll (kid.toList.map (·.1)) m = .ok ss m' ∧
        Does (kid.toList.map fun k => .called m.proc.pid (.wait k.1 (.ok k.2))) m m' := by
  cases kid with
  | none => exact Or.inr ⟨[], m, rfl, .of_eq rfl rfl⟩
  | some k =>
    rcases await_does (hfound k rfl) with htrips | ⟨s, m', hawait, hdoes⟩
    · exact Or.inl htrips.bind
    · have hall : awaitAll [k.1] m = .ok [s] m' :=
        bind_eq_ok.2 ⟨s, m', hawait, bind_eq_ok.2 ⟨[], m', rfl, rfl⟩⟩
      exact Or.inr ⟨[s], m', hall, hdoes⟩

variable {m : Machine} {file : Nat} (htells : m.Tells file)
include htells

/-- A refusal is logged, and the user is told of it in one line. -/
theorem complain_does (logger message : Text) (res : Resource) (e : Errno) :
    ∃ m', (do error logger message none; report (res.name ++ ": ".toList ++ e.reason)) m = .ok () m' ∧
      Does [.wrote m.proc.pid file (encode (res.complaint e)) false] m m' ∧ Quiet m m' := by
  obtain ⟨m₁, hlog, hq⟩ := logRecord_quiet ⟨.error, logger, message, none⟩ m
  have hlogged : Does [] m m₁ := (Keeps.logRecord _).of_ok hlog
  obtain ⟨w, hw, hreport⟩ := (htells.of_grows hq.plain.grows (by rw [hq.same.fds])).report
    (res.name ++ ": ".toList ++ e.reason)
  have hall : (do error logger message none; report (res.name ++ ": ".toList ++ e.reason)) m
      = .ok () _ := bind_eq_ok.2 ⟨(), m₁, hlog, hreport⟩
  have hmoved : Does [] m₁ { m₁ with world := w } := .of_eq (World.write_spec hw).journal rfl
  have htold := Does.note { m₁ with world := w }
    (e := .wrote m₁.proc.pid file (encode (res.complaint e)) false) rfl
  rw [← hlogged.pid]
  exact ⟨_, hall, hlogged.trans (hmoved.trans htold),
    (Keeps.bind (.error logger message none) fun _ => .report _).of_ok hall⟩

/-- Where nothing was made, to say so is all that is left. -/
theorem complain_givesUp (logger message : Text) (res : Resource) (e : Errno) :
    GivesUp (do
      error logger message none
      report (res.name ++ ": ".toList ++ e.reason)
      return .failure) m file res e ⟨none, none⟩ := by
  obtain ⟨m', htold, hdoes, -⟩ := complain_does htells logger message res e
  obtain ⟨_, m₁, hlog, hreport⟩ := bind_eq_ok.1 htold
  exact ⟨m', bind_eq_ok.2 ⟨_, m₁, hlog, bind_eq_ok.2 ⟨_, m', hreport, rfl⟩⟩, hdoes⟩

theorem withoutChild_givesUp (c : Command) (e : Errno) :
    GivesUp (withoutChild c e) m file .child e ⟨none, none⟩ :=
  complain_givesUp htells runner _ .child e

theorem withoutPipe_givesUp (e : Errno) :
    GivesUp (withoutPipe e) m file .channel e ⟨none, none⟩ :=
  complain_givesUp htells Operator.pipe.logger _ .channel e

variable {kid : Option (Nat × Nat)} (hfound : ∀ k ∈ kid, m.world.ended.find? (·.1 == k.1) = some k)
include hfound

/-- Whatever a pipe has made when it is refused a child, it gives up or the process trips. -/
theorem finishPipe_givesUp (r w : Nat) (e : Errno) :
    (finishPipe r w (kid.toList.map (·.1)) (some (.system e none))).Trips m ∨
      GivesUp (finishPipe r w (kid.toList.map (·.1)) (some (.system e none))) m file .child e
        ⟨some (r, w), kid⟩ := by
  obtain ⟨m₁, htold, hdoes₁, hq⟩ := complain_does htells Operator.pipe.logger
    ("Cannot fork ".toList ++ "pipe stage".toList ++ ": ".toList ++ (Failure.system e none).message)
    .child e
  have hstart : finishPipe r w (kid.toList.map (·.1)) (some (.system e none)) m
      = (closeAll [r, w] >>= fun _ => awaitStages (kid.toList.map (·.1))) m₁ := by
    have hreport : (some (Failure.system e none)).forM
        (reportFork Operator.pipe.logger "pipe stage".toList) m = .ok () m₁ := htold
    unfold finishPipe
    rw [bind_eq, attempt_of_ok hreport]
    rfl
  rcases closeAll_does [r, w] m₁ with htrips | ⟨m₂, hclose, hdoes₂⟩
  · exact Or.inl (htrips.bind.behind hstart hdoes₁)
  have hrest := hstart.trans (show _ = awaitStages (kid.toList.map (·.1)) m₂ by rw [bind_eq, hclose])
  have hkeep : Rebound m₁ m₂ := (Keeps.closeAll [r, w]).of_ok hclose
  have hended : m₂.world.ended = m.world.ended := hkeep.plain.ended.trans hq.plain.ended
  have hboth := hdoes₁.trans hdoes₂
  rw [← hended] at hfound
  rcases awaitStages_does hfound with htrips | ⟨m', hall, hdoes₃⟩
  · exact Or.inl (htrips.behind hrest hboth)
  · refine Or.inr ⟨m', hrest.trans hall, ?_⟩
    rw [hboth.pid] at hdoes₃
    rw [hdoes₁.pid] at hboth
    exact hboth.trans hdoes₃

/-- Whatever a parallel pair has made when it is refused a child, it gives up or the process trips. -/
theorem finishParallel_givesUp (e : Errno) :
    (finishParallel (kid.toList.map (·.1)) (some (.system e none))).Trips m ∨
      GivesUp (finishParallel (kid.toList.map (·.1)) (some (.system e none))) m file .child e
        ⟨none, kid⟩ := by
  obtain ⟨m₁, htold, hdoes₁, hq⟩ := complain_does htells Operator.parallel.logger
    ("Cannot fork ".toList ++ "parallel branch".toList ++ ": ".toList
      ++ (Failure.system e none).message) .child e
  have hstart : finishParallel (kid.toList.map (·.1)) (some (.system e none)) m
      = (awaitAll (kid.toList.map (·.1)) >>= judge) m₁ := by
    have hreport : (some (Failure.system e none)).forM
        (reportFork Operator.parallel.logger "parallel branch".toList) m = .ok () m₁ := htold
    unfold finishParallel
    rw [bind_eq, hreport]
  rw [← hq.plain.ended] at hfound
  rcases awaitAll_does hfound with htrips | ⟨ss, m₂, hall, hdoes₂⟩
  · exact Or.inl (htrips.bind.behind hstart hdoes₁)
  · have hone : ss.length < 2 := by
      rw [awaitAll_yields _ m₁ ss m₂ hall]
      cases kid <;> simp
    obtain ⟨s, m', hjudge⟩ := Answers.judge ss m₂
    have hverdict : s = .failure := by
      rw [judge_eq_ok hjudge, if_neg fun h => by omega]
    have hjudged : Does [] m₂ m' := (Keeps.judge ss).of_ok hjudge
    subst hverdict
    refine Or.inr ⟨m', hstart.trans (bind_eq_ok.2 ⟨ss, m₂, hall, hjudge⟩), ?_⟩
    have hwaited := hdoes₂.trans hjudged
    rw [List.append_nil, hdoes₁.pid] at hwaited
    exact hdoes₁.trans hwaited

end GivingUp

/-! ### Coping -/

/-- What a process did, before it was refused a call and behind that: at the first it made something, and
at the last it gave it up. -/
def Made.doings (made : Made) (pid file : Nat) (res : Resource) (e : Errno) : List Entry :=
  made.setUp pid ++ .called pid (res.refused e) ::
    .wrote pid file (encode (res.complaint e)) false :: made.tornDown pid

theorem Made.refused_of_mem {made : Made} {pid file : Nat} {res : Resource} {e : Errno} {d : Entry}
    {refusal : Resource × Errno} (hd : d ∈ made.doings pid file res e)
    (h : d.refusal? = some refusal) : refusal = (res, e) := by
  have hnone (hmem : d ∈ made.setUp pid ∨ d ∈ made.tornDown pid) : refusal = (res, e) :=
    nomatch (refusal?_of_mem hmem).symm.trans h
  rcases List.mem_append.1 hd with hd | hd
  · exact hnone (Or.inl hd)
  rcases List.mem_cons.1 hd with rfl | hd
  · exact Option.some.inj (h.symm.trans (Resource.refusal?_refused res e))
  rcases List.mem_cons.1 hd with rfl | hd
  · exact nomatch h
  · exact hnone (Or.inr hd)

/-- What an action comes to that makes what it needs, where the doings `first` come before that. -/
inductive Copes (a : Act Status) (m : Machine) (file : Nat) (first : List Entry) (Ran : Nat → Prop) :
    Prop where
  /-- The running process is refused nothing. -/
  | smooth (h : Smooth m (a.after m))
  /-- It is broken off by a call that closes or waits. -/
  | trips (h : a.Trips m)
  /-- The running process is refused a call: it gives up what it had made, and fails. Its child, if it
  had made one, ran to an end that is as `Ran` says. -/
  | declines (res : Resource) (e : Errno) {made : Made} {m' : Machine} (h : a m = .ok .failure m')
      (hdoes : Does (first ++ made.doings m.proc.pid file res e) m m')
      (hran : ∀ kid ∈ made.child, Ran kid.2)

namespace Copes

variable {a b : Act Status} {m n : Machine} {file : Nat} {first : List Entry} {Ran : Nat → Prop}

theorem mono {Ran' : Nat → Prop} (h : Copes a m file first Ran) (hran : ∀ raw, Ran raw → Ran' raw) :
    Copes a m file first Ran' := by
  cases h with
  | smooth h => exact .smooth h
  | trips h => exact .trips h
  | declines res e h hdoes hkid => exact .declines res e h hdoes fun kid hk => hran _ (hkid kid hk)

/-- What follows a refusal is told by what is left. -/
theorem of_givesUp (res : Resource) {e : Errno} (made : Made) (h : a m = b n)
    (hstart : Does (made.setUp m.proc.pid ++ [.called m.proc.pid (res.refused e)]) m n)
    (hb : b.Trips n ∨ GivesUp b n file res e made) (hran : ∀ kid ∈ made.child, Ran kid.2) :
    Copes a m file [] Ran := by
  rcases hb with htrips | ⟨m', hb, hdoes⟩
  · exact .trips (htrips.behind h hstart)
  · refine .declines res e (h.trans hb) ?_ hran
    rw [hstart.pid] at hdoes
    have hall := hstart.trans hdoes
    rwa [List.append_assoc] at hall

/-- What stands before an action and behind it, and is refused nothing, changes nothing. -/
theorem within {f : Status → Act Status} (hb : Copes b n file [] Ran) (h : a m = (b >>= f) n)
    (hstart : Does first m n) (hfirst : ∀ d ∈ first, d.refusal? = none)
    (hf : ∀ s, Keeps (Does []) (f s)) (hpass : ∀ s k, ∃ k', f s k = .ok s k') :
    Copes a m file first Ran := by
  cases hb with
  | smooth hb =>
    have hkeep (s : Status) : Keeps Smooth (f s) := fun k => .of_does (hf s k) (by simp)
    have hall : Smooth n ((b >>= f).after n) := by
      rcases after_bind_cases b f n with ⟨s, -, hrun⟩ | ⟨e, -, hrun⟩
      · rw [hrun]
        exact hb.trans (hkeep s _)
      · rwa [hrun]
    exact .smooth (after_eq_of_eq h ▸ (Smooth.of_does hstart hfirst).trans hall)
  | trips hb => exact .trips (hb.bind.behind h hstart)
  | @declines res e made m₁ hb hdoes hran =>
    obtain ⟨m', hend⟩ := hpass .failure m₁
    have hkept : Does [] m₁ m' := (hf .failure).of_ok hend
    refine .declines res e (h.trans (bind_eq_ok.2 ⟨_, m₁, hb, hend⟩)) ?_ hran
    have hall := hstart.trans (hdoes.trans hkept)
    rwa [List.nil_append, List.append_nil, hstart.pid] at hall

end Copes

/-- A call for a child that is refused is all that its process does. -/
theorem Machine.barren_does (m : Machine) (e : Errno) :
    Does [.called m.proc.pid (.fork (.error e))] m (m.barren e) := .of_noted ⟨rfl, rfl, Nat.le_refl _⟩

/-- The children of a pair are made, or the running process is refused one of them: then it has made
one at most, which has ended. -/
theorem births_does {x y : Act ChildEnd} {m m' : Machine} {pids : List Nat} {failure : Option Failure}
    (h : Births x y m (pids, failure) m') (hx : Keeps Proceeds x) (hy : Keeps Proceeds y)
    (hf : Keeps Followed x) (hpid : m.proc.pid < m.world.nextPid) (hs : m.world.Sane) :
    Smooth m m' ∨ ∃ e kid, failure = some (.system e none) ∧ pids = kid.toList.map (·.1) ∧
      Does ((Made.mk none kid).setUp m.proc.pid ++ [.called m.proc.pid (.fork (.error e))]) m m' ∧
      (∀ k ∈ kid, m'.world.ended.find? (·.1 == k.1) = some k) ∧
      ∀ k ∈ kid, ∃ n, Spawned x k.2 m n := by
  cases h with
  | none e => exact Or.inr ⟨e, none, rfl, rfl, m.barren_does e, by simp, by simp⟩
  | @one raw m₁ hbx e hsx =>
    have hmade := spawn_does hx hpid hsx
    have hrefused := m₁.barren_does e
    rw [hmade.pid] at hrefused
    refine Or.inr ⟨e, some (m.world.nextPid, raw), rfl, rfl, hmade.trans hrefused, ?_, ?_⟩
    · rintro k ⟨⟩
      rw [(m₁.barren_quiet e).plain.ended]
      exact hbx.find? hf hs
    · rintro k ⟨⟩
      exact ⟨m₁, hsx, hbx⟩
  | @two rawx rawy m₁ m₂ hbx hby hsx hsy =>
    have hown : Own m m₁ := ((Keeps.spawn_proceeds hx).of_ok hsx).own
    have hpid₁ : m₁.proc.pid < m₁.world.nextPid := hown.pid ▸ Nat.lt_of_lt_of_le hpid hown.nextPid
    have hmade := (spawn_does hx hpid hsx).trans (spawn_does hy hpid₁ hsy)
    exact Or.inl (.of_does hmade (by simp [Entry.refusal?, Event.refusal?]))

/-- A raw wait status is that of the child which runs the left side of a pair: it tells that the side ran
to its end from the machine on in which it begins, or that its stream could not be bound. -/
def LeftRan (a : Act Status) (m : Machine) (op : Operator) (raw : Nat) : Prop :=
  (∃ k, BeginsLeft a m op k ∧ raw = exitedRaw (sideCode (a k))) ∨
  op = .pipe ∧ raw = exitedRaw 1 ∧ ∃ r w n failure k, createChannel m = .ok (r, w) n ∧
    bindStream w 1 [r, w] n.born = .error failure k

section Units

variable {m : Machine} {file : Nat} (htells : m.Tells file) (hpid : m.proc.pid < m.world.nextPid)
include htells hpid

theorem runExternal_copes {Ran : Nat → Prop} (c : Command) : Copes (runExternal c) m file [] Ran := by
  rcases spawn_cases (runChild c) m with ⟨e, hs⟩ | ⟨raw, m₁, hs, -⟩
  · have hrun : runExternal c m = withoutChild c e (m.barren e) := by
      unfold runExternal
      rw [bind_eq, attempt, hs]
      rfl
    have htells' := htells.of_grows (m.barren_quiet e).plain.grows rfl
    exact .of_givesUp .child ⟨none, none⟩ hrun (m.barren_does e)
      (Or.inr (withoutChild_givesUp htells' c e)) (by simp)
  · have hrun : runExternal c m = await m.world.nextPid m₁ := by
      unfold runExternal
      rw [bind_eq, attempt_of_ok hs]
    have hmade : Smooth m m₁ := .of_does (spawn_does (Keeps.runChild_proceeds c) hpid hs)
      (by simp [Entry.refusal?, Event.refusal?])
    exact .smooth (after_eq_of_eq hrun ▸ hmade.trans (await_smooth _ m₁))

variable {a b : Act Status} (ha : Keeps Proceeds a) (hb : Keeps Proceeds b)
  (hfa : Keeps Followed a) (hfb : Keeps Followed b) (hs : m.world.Sane)
include ha hb hfa hfb hs

theorem inParallel_copes : Copes (inParallel a b) m file [] (LeftRan a m .parallel) := by
  obtain ⟨pids, failure, m₁, hbirths, hrun⟩ := inParallel_cases a b m
  rcases births_does hbirths (Keeps.sideWork_proceeds ha) (Keeps.sideWork_proceeds hb)
    (sideWork_followed hfa) hpid hs with hsmooth | ⟨e, kid, rfl, rfl, hdoes, hfound, hran⟩
  · have hfinish : Keeps Smooth (finishParallel pids failure) :=
      .finishParallel (fun pid _ => await_smooth pid) failure
    exact .smooth (after_eq_of_eq hrun ▸ hsmooth.trans (hfinish m₁))
  · have hkept := (hbirths.followed (sideWork_followed hfa) (sideWork_followed hfb)).1
    have htells' := htells.of_grows hkept.grows (by rw [hbirths.same.fds])
    refine .of_givesUp .child ⟨none, kid⟩ hrun hdoes (finishParallel_givesUp htells' hfound e)
      fun kid hkid => ?_
    obtain ⟨m₂, hspawned⟩ := hran kid hkid
    exact Or.inl ⟨m.born, .parallel hspawned, hspawned.2.raw_eq⟩

theorem piped_copes : Copes (piped a b) m file [] (LeftRan a m .pipe) := by
  rcases piped_cases a b m with ⟨e, -, hrun⟩ | ⟨r, w, m₁, pids, failure, m₂, hc, hbirths, hrun⟩
  · have htells' := htells.of_grows (m.unpiped_quiet e).plain.grows rfl
    have hrefused : Does [.called m.proc.pid (.pipe (.error e))] m (m.unpiped e) :=
      .of_noted ⟨rfl, rfl, Nat.le_refl _⟩
    exact .of_givesUp .channel ⟨none, none⟩ hrun hrefused
      (Or.inr (withoutPipe_givesUp htells' e)) (by simp)
  have hchannel := createChannel_does hc
  have hkeep : Rebound m m₁ := Keeps.createChannel.of_ok hc
  have hown : Own m m₁ := (Keeps.createChannel_proceeds.of_ok hc).own
  have hpid₁ : m₁.proc.pid < m₁.world.nextPid := hown.pid ▸ Nat.lt_of_lt_of_le hpid hown.nextPid
  obtain ⟨hfx, hfy⟩ := pipeSides_followed hfa hfb r w
  rcases births_does hbirths (Keeps.pipeSide_proceeds ha _ _ _ _)
    (Keeps.pipeSide_proceeds hb _ _ _ _) hfx hpid₁ (hkeep.followed.sane hs) with
    hsmooth | ⟨e, kid, rfl, rfl, hdoes, hfound, hran⟩
  · have hmade : Smooth m m₁ := .of_does hchannel (by simp [Entry.refusal?, Event.refusal?])
    have hfinish : Keeps Smooth (finishPipe r w pids failure) :=
      .finishPipe (closeAll_smooth _) (fun pid _ => await_smooth pid) failure
    exact .smooth (after_eq_of_eq hrun ▸ (hmade.trans hsmooth).trans (hfinish m₂))
  · obtain ⟨f, g, hchannelled⟩ := createChannel_eq_ok hc
    have hkept : Followed m₁ m₂ := (hbirths.followed hfx hfy).1
    have htells' := htells.of_grows (hkeep.plain.grows.trans hkept.grows)
      (by rw [hbirths.same.fds, hchannelled.get?_eq htells.1])
    rw [hchannel.pid] at hdoes
    refine .of_givesUp .child ⟨some (r, w), kid⟩ hrun (hchannel.trans hdoes)
      (finishPipe_givesUp htells' hfound r w e) fun kid hkid => ?_
    obtain ⟨m₃, hspawned⟩ := hran kid hkid
    obtain ⟨-, dead, hlived, -⟩ := id hspawned
    rcases hlived.pipeSide_cases with ⟨k, hbind, hraw⟩ | ⟨⟨failure, k, hbind⟩, hraw, -⟩
    · exact Or.inl ⟨k, .pipe hc hspawned hbind, hraw⟩
    · exact Or.inr ⟨rfl, hraw, r, w, m₁, failure, k, hc, hbind⟩

end Units

/-! ### Nodes -/

/-- The nodes for which the process that runs them makes a child: external commands, pipes, and parallel
pairs. -/
inductive Tree.Makes (rules : Rules) (m : Machine) : Tree → Prop where
  /-- A command that is run as a child. -/
  | command {mark : Option Nat} {c : Command}
      (hkind : rules.kind (c.verb.expand m.proc.table) = .external) : Makes rules m (.leaf mark c)
  /-- A pair of children. -/
  | pair {mark : Option Nat} {op : Operator} {l r : Tree} (hop : op.forks = true) :
      Makes rules m (.binary mark op l r)

/-- What a process does first for a node: it begins a command, if the node is one. -/
def Tree.beginning (p : Proc) : Tree → List Entry
  | .leaf mark c => [.began p mark c]
  | _ => []

theorem Tree.told_does (t : Tree) (level : Int) (m : Machine) :
    Does (t.beginning m.proc) m (t.told level m) := by
  cases t with
  | leaf mark c =>
    have hbegan : Does [.began m.proc mark c] m (m.note (.began m.proc mark c)) := .note m rfl
    exact hbegan.trans (Keeps.debug runner _ (m.note (.began m.proc mark c)))
  | binary mark op l r =>
    have hlog : Does [] m ((Tree.binary mark op l r).told level m) := Keeps.debug executor _ m
    exact hlog
  | bare mark => exact .of_eq rfl rfl

section Nodes

variable {rules : Rules} {t : Tree} {level : Int} {m : Machine} {file : Nat}

/-- Whichever calls fail, the process that runs a node copes: it is refused nothing, it is broken off by
a call that closes or waits, or it fails and leaves nothing behind. -/
theorem execute_copes (level : Int) (hmakes : t.Makes rules m) (htells : m.Tells file)
    (hpid : m.proc.pid < m.world.nextPid) (hs : m.world.Sane) :
    Copes (execute rules t level) m file (t.beginning m.proc) fun raw => ∃ mark op l r,
      t = .binary mark op l r ∧ LeftRan (execute rules l (level + 1)) (t.told level m) op raw := by
  have hfirst : ∀ d ∈ t.beginning m.proc, d.refusal? = none := by
    cases t <;> simp [Tree.beginning, Entry.refusal?]
  have htold := t.told_followed level m
  have hsane := htold.sane hs
  have htells' : (t.told level m).Tells file :=
    htells.of_grows htold.grows (by rw [t.told_idle level m])
  have hpid' : (t.told level m).proc.pid < (t.told level m).world.nextPid := by
    rw [t.told_idle level m]
    exact Nat.lt_of_lt_of_le hpid htold.nextPid
  cases hmakes with
  | @command mark c hkind =>
    exact (runExternal_copes htells' hpid' c).within (execute_external mark level hkind)
      (Tree.told_does _ level m) hfirst (fun s => .remember s) exists_remember
  | @pair mark op l r hop =>
    by_cases hadmits : rules.Admits op (.binary mark op l r) level
    · have hproceeds (u : Tree) := execute_proceeds rules u (level + 1)
      have hfollowed (u : Tree) := execute_followed rules u (level + 1)
      have hpair : Copes (combine op (execute rules l (level + 1)) (execute rules r (level + 1)))
          ((Tree.binary mark op l r).told level m) file []
          (LeftRan (execute rules l (level + 1)) ((Tree.binary mark op l r).told level m) op) := by
        cases op with
        | pipe =>
          exact piped_copes htells' hpid' (hproceeds l) (hproceeds r) (hfollowed l) (hfollowed r) hsane
        | parallel =>
          exact inParallel_copes htells' hpid' (hproceeds l) (hproceeds r) (hfollowed l) (hfollowed r)
            hsane
        | sequential => cases hop
        | conditionalAnd => cases hop
        | conditionalOr => cases hop
      exact (hpair.mono fun raw hran => ⟨mark, op, l, r, rfl, hran⟩).within
        (execute_of_admits hadmits m) (Tree.told_does _ level m) hfirst
        (fun s => .bind (.debug _ _) fun _ => .remember s) fun s => exists_conclude _ s
    · obtain ⟨failure, hrefused⟩ := execute_of_not_admits hadmits m
      have hsmooth : Smooth m m := Frame.refl m
      exact .smooth ((after_of_error hrefused).symm ▸ hsmooth)

/-- What becomes of a node for which its process was refused a channel or a child. -/
structure Degrades (rules : Rules) (t : Tree) (level : Int) (m m' : Machine) (file : Nat)
    (res : Resource) (e : Errno) (made : Made) : Prop where
  /-- The node fails, and raises nothing. -/
  answer : execute rules t level m = .ok .failure m'
  /-- The last number of the process is 1. -/
  last : m'.proc.commandLast = 1
  /-- The process tells the user in one line, tries nothing further, and leaves nothing of what it had
  made behind: that is all that it does. -/
  doings : doings m.proc.pid (m.since m') = t.beginning m.proc ++ made.doings m.proc.pid file res e
  /-- The child that it had made, if there is one, ran the left side of the pair to its end. -/
  left : ∀ kid ∈ made.child, ∃ mark op l r, t = .binary mark op l r ∧
    LeftRan (execute rules l (level + 1)) (t.told level m) op kid.2
  /-- Whatever stands around the node is run as it is behind any node that answers with 1. -/
  around : ∀ around top n, Reaches rules t around top n level m →
    execute rules (around.fill t) top n = around.run rules t (fun _ _ => .ok .failure m') top n
  /-- Where it is the left side of a serial pair, the right side is run, unless by an operator that
  asks for success. -/
  goes : ∀ mark op r top n, op.forks = false → Reaches rules t (.left mark op .hole r) top n level m →
    execute rules (.binary mark op t r) top n =
      ((if op = .conditionalAnd then op.pass 1 else execute rules r (top + 1)) >>= fun status => do
        debug executor (levelText top ++ op.name ++ " -> ".toList ++ status.shown)
        remember status) m'

/-- Behind a node that failed, the right side of a serial pair is run or skipped. -/
theorem execute_of_failure {mark : Option Nat} {op : Operator} {r : Tree} {n m' : Machine}
    (hop : op.forks = false) (hadmits : rules.Admits op (.binary mark op t r) level)
    (h : execute rules t (level + 1) ((Tree.binary mark op t r).told level n) = .ok .failure m') :
    execute rules (.binary mark op t r) level n =
      ((if op = .conditionalAnd then op.pass 1 else execute rules r (level + 1)) >>= fun status => do
        debug executor (levelText level ++ op.name ++ " -> ".toList ++ status.shown)
        remember status) m' := by
  have hsides : combine op (execute rules t (level + 1)) (execute rules r (level + 1))
      ((Tree.binary mark op t r).told level n)
      = (if op = .conditionalAnd then op.pass 1 else execute rules r (level + 1)) m' := by
    rw [combine_of_serial hop, bind_eq, h]
    cases op <;> rfl
  rw [execute_of_admits hadmits, bind_eq, bind_eq, hsides]

/-- **Main result**: whichever of the calls is refused by which a process makes a channel or a child for
a command or a pair, at any depth and in any process, the node fails and that is all: the user is told
in one line, nothing is left behind, and the tree around goes on. Standard error has to take what is
written, and no call that closes or waits may fail as well. -/
theorem execute_degrades {res : Resource} {e : Errno} (hmakes : t.Makes rules m)
    (hpid : m.proc.pid < m.world.nextPid) (hs : m.world.Sane) (htells : m.Tells file)
    (hrefused : .called m.proc.pid (res.refused e) ∈ m.since ((execute rules t level).after m))
    (hfree : ∀ d ∈ doings m.proc.pid (m.since ((execute rules t level).after m)), ¬ d.Strands) :
    ∃ m' made, Degrades rules t level m m' file res e made := by
  have hdoing : Entry.called m.proc.pid (res.refused e)
      ∈ doings m.proc.pid (m.since ((execute rules t level).after m)) := mem_doings.2 ⟨hrefused, rfl⟩
  have hrefusal : (Entry.called m.proc.pid (res.refused e)).refusal? = some (res, e) :=
    Resource.refusal?_refused res e
  have hcopes := execute_copes level hmakes htells hpid hs
  cases hcopes with
  | smooth hsmooth => exact nomatch (hsmooth.not_mem hdoing).symm.trans hrefusal
  | trips htrips =>
    obtain ⟨d, hd, hstrands⟩ := htrips.exists_strands
    exact absurd hstrands (hfree d hd)
  | @declines res' e' made m' h hdoes hran =>
    rw [after_of_ok h, hdoes.since] at hdoing
    have hsame : (res, e) = (res', e') := by
      rcases List.mem_append.1 hdoing with hbegan | hmade
      · cases t with
        | leaf mark c => exact nomatch List.mem_singleton.1 hbegan
        | binary mark op l r => exact nomatch hbegan
        | bare mark => exact nomatch hbegan
      · exact Made.refused_of_mem hmade hrefusal
    obtain ⟨rfl, rfl⟩ := Prod.mk.inj hsame
    refine ⟨m', made, h, execute_settles rules t level m 1 m' h, hdoes.since, hran, ?_, ?_⟩
    · intro around top n hreaches
      rw [hreaches.execute_eq, h]
    · intro mark op r top n hop hreaches
      obtain ⟨hadmits, rfl, rfl⟩ := hreaches.left_serial hop
      exact execute_of_failure hop hadmits h

end Nodes

/-- The tree of `echo | cat`. -/
def echoToCat : Tree :=
  .binary none .pipe (.leaf none ⟨[.lit "echo".toList], [], none, none, none⟩)
    (.leaf none ⟨[.lit "cat".toList], [], none, none, none⟩)

/-- That tree in front of `|| pwd`, in a new session in which the second child cannot be made. -/
theorem execute_degrades_orElse :
    let rules : Rules := ⟨true, [.pipe, .conditionalOr]⟩
    let r : Tree := .leaf none ⟨[.lit "pwd".toList], [], none, none, none⟩
    let n := Machine.boot .standard FileTree.home [] [] [⟨.fork, 3, .tryAgain⟩] []
    let m := (Tree.binary none .conditionalOr echoToCat r).told 0 n
    echoToCat.Makes rules m ∧ m.proc.pid < m.world.nextPid ∧ m.world.Sane ∧ m.Tells 2 ∧
      ∃ m' made, Degrades rules echoToCat 1 m m' 2 .child .tryAgain made ∧
        execute rules (.binary none .conditionalOr echoToCat r) 0 n = (execute rules r 1 >>=
          fun status => do
            debug executor (levelText 0 ++ Operator.conditionalOr.name ++ " -> ".toList ++ status.shown)
            remember status) m' := by
  intro rules r n m
  have hmakes : echoToCat.Makes rules m := .pair rfl
  have hpid : m.proc.pid < m.world.nextPid := by decide +kernel
  have htold : Followed n m := Tree.told_followed _ 0 n
  have hs : m.world.Sane := htold.sane (Machine.boot_sane .standard FileTree.home [] [] _ [])
  have hboot : n.Tells 2 := ⟨rfl, World.takes_iff.2 ⟨_, rfl, rfl, by simp, by simp, by simp⟩⟩
  have htells : m.Tells 2 := hboot.of_grows htold.grows (by rw [Tree.told_idle _ 0 n])
  have hrefused : ∃ d ∈ m.since ((execute rules echoToCat 1).after m),
      d.doer? = some m.proc.pid ∧ d.refusal? = some (.child, .tryAgain) := by decide +kernel
  have hfree : ∀ d ∈ doings m.proc.pid (m.since ((execute rules echoToCat 1).after m)),
      ¬ d.Strands := by decide +kernel
  have hreaches : Reaches rules echoToCat (.left none .conditionalOr .hole r) 0 n 1 m :=
    .left ⟨by decide, by decide⟩ (.serial rfl) (.hole 1 m)
  obtain ⟨d, hd, hdoer, hrefusal⟩ := hrefused
  obtain rfl := Entry.eq_refused hdoer hrefusal
  obtain ⟨m', made, hdegrades⟩ := execute_degrades hmakes hpid hs htells hd hfree
  have hgoes := hdegrades.goes none .conditionalOr r 0 n rfl hreaches
  rw [if_neg (by decide), Int.zero_add] at hgoes
  exact ⟨hmakes, hpid, hs, htells, m', made, hdegrades, hgoes⟩

/-- A refused child is not all that can befall that tree. Where its process cannot wait for the child that
it has, or cannot tell the user, the pipe does not answer with 1; and where the stream of the left side
cannot be bound, the left side is not run. -/
theorem execute_not_degrades :
    let rules : Rules := ⟨true, [.pipe]⟩
    let m (closed : List Nat) (faults : List Fault) :=
      Machine.boot .standard FileTree.home [] closed faults []
    let told (n : Machine) := n.since ((execute rules echoToCat 0).after n)
    let refused (n : Machine) := ∃ d ∈ told n, d.doer? = some n.proc.pid ∧
      d.refusal? = some (.child, .tryAgain)
    (refused (m [] [⟨.fork, 3, .tryAgain⟩, ⟨.wait, 2, .deviceFailed⟩]) ∧
      ∀ m', execute rules echoToCat 0 (m [] [⟨.fork, 3, .tryAgain⟩, ⟨.wait, 2, .deviceFailed⟩])
        ≠ .ok .failure m') ∧
    (refused (m [2] [⟨.fork, 3, .tryAgain⟩]) ∧
      ∀ m', execute rules echoToCat 0 (m [2] [⟨.fork, 3, .tryAgain⟩]) ≠ .ok .failure m') ∧
    (refused (m [] [⟨.dup, 1, .badDescriptor⟩, ⟨.fork, 2, .tryAgain⟩]) ∧
      ∀ d ∈ told (m [] [⟨.dup, 1, .badDescriptor⟩, ⟨.fork, 2, .tryAgain⟩]), d.leaf? = none) := by
  intro rules m told refused
  have hraised (n : Machine) (h : answered (execute rules echoToCat 0 n) = []) :
      ∀ m', execute rules echoToCat 0 n ≠ .ok .failure m' := by
    intro m' hok
    rw [hok] at h
    exact nomatch h
  refine ⟨⟨?_, hraised _ ?_⟩, ⟨?_, hraised _ ?_⟩, ?_, ?_⟩
  all_goals decide +kernel

end LineShell
