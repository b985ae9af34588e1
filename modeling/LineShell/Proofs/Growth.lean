import LineShell.Proofs.Lives
import LineShell.Proofs.Plumbing

/-!
# What every run leaves

Whatever a tree does and whichever calls fail, the world it leaves follows from the one it found:
everything has grown, the journal goes on, the numbers of processes are not used again, and of the
processes that had ended before none was waited for. A process waits only for children that it
made itself.

## The model

`World.Sane` says that whatever has ended has been made, so that no number of an ended process is
given out again. `World.Follows` relates a world to one that a run can leave. Since a process may
wait for its own children, the relation does not compose with a wait by itself: `FollowedFrom`
says that the world still follows from an earlier one, and under that relation a wait is kept if
the process waited for is none of those that had ended by then (`World.Follows.reaped`).

## What is proved

* What a child leaves follows from what its maker had, and what the maker finds behind the child
  does as well (`World.Follows.outlived`, `Birth.followed`).
* A pair follows if its sides do (`Keeps.combine_followed`), and so every tree does
  (`execute_followed`), by induction on the tree. No condition is put on the machine or on which
  calls fail.
* A new session is sane (`Machine.boot_sane`), and what follows from a sane world is sane.
-/

namespace LineShell

open Act

/-- Whatever has ended has been made. -/
def World.Sane (w : World) : Prop := ∀ e ∈ w.ended, e.1 < w.nextPid

/-- A world that the run of a tree can leave. -/
structure World.Follows (w w' : World) : Prop where
  /-- It has grown. -/
  grows : w.Grows w'
  /-- The journal goes on. -/
  journal : w.journal <+: w'.journal
  /-- No number is used again. -/
  nextPid : w.nextPid ≤ w'.nextPid
  /-- The plan is as it was. -/
  faults : w'.faults = w.faults
  /-- What had ended before was not waited for. -/
  ended : w'.ended.filter (·.1 < w.nextPid) = w.ended.filter (·.1 < w.nextPid)
  /-- Whatever has ended has been made. -/
  sane : w.Sane → w'.Sane

namespace World

variable {u v w w' : World}

theorem Plain.follows (h : w.Plain w') : w.Follows w' where
  grows := h.grows
  journal := by
    obtain ⟨es, hes, -⟩ := h.journal
    exact ⟨es, hes.symm⟩
  nextPid := Nat.le_of_eq h.nextPid.symm
  faults := h.faults
  ended := by rw [h.ended]
  sane hs e he := by
    rw [h.nextPid]
    exact hs e (h.ended ▸ he)

namespace Follows

theorem refl (w : World) : w.Follows w := (Plain.refl w).follows

theorem trans (huv : u.Follows v) (hvw : v.Follows w) : u.Follows w where
  grows := huv.grows.trans hvw.grows
  journal := huv.journal.trans hvw.journal
  nextPid := Nat.le_trans huv.nextPid hvw.nextPid
  faults := hvw.faults.trans huv.faults
  ended := by
    have hle := huv.nextPid
    have hnarrow (es : List (Nat × Nat)) : es.filter (·.1 < u.nextPid)
        = (es.filter (·.1 < v.nextPid)).filter (·.1 < u.nextPid) := by
      rw [List.filter_filter]
      refine List.filter_congr fun e _ => ?_
      have hiff : e.1 < u.nextPid ↔ e.1 < u.nextPid ∧ e.1 < v.nextPid := by omega
      rw [← Bool.decide_and, ← decide_eq_decide.2 hiff]
    rw [hnarrow w.ended, hvw.ended, ← hnarrow, huv.ended]
  sane hs := hvw.sane (huv.sane hs)

theorem note (w : World) (e : Entry) : w.Follows (w.note e) where
  grows := w.grows_note e
  journal := ⟨[e], rfl⟩
  nextPid := Nat.le_refl _
  faults := rfl
  ended := rfl
  sane hs := hs

/-- A process that had ended before is still among those that ended, if it was. -/
theorem find? (h : w.Follows w') {pid : Nat} (hpid : pid < w.nextPid) :
    w'.ended.find? (·.1 == pid) = w.ended.find? (·.1 == pid) := by
  have hnarrow (es : List (Nat × Nat)) :
      (es.filter (·.1 < w.nextPid)).find? (·.1 == pid) = es.find? (·.1 == pid) := by
    rw [List.find?_filter]
    congr 1
    funext e
    by_cases he : e.1 = pid
    · simp [he, hpid]
    · simp [he]
  rw [← hnarrow, h.ended, hnarrow]

end Follows

end World

/-! ### Actions that are followed -/

/-- The world follows. -/
def Followed (m m' : Machine) : Prop := m.world.Follows m'.world

instance : Frame Followed := ⟨fun m => .refl m.world, World.Follows.trans⟩

instance : Lenient Followed := ⟨World.Plain.follows⟩

instance : Forgetful Followed := ⟨fun _ => .refl _⟩

/-- The world still follows from an earlier one. -/
def FollowedFrom (w : World) (m m' : Machine) : Prop := w.Follows m.world → w.Follows m'.world

instance (w : World) : Frame (FollowedFrom w) := ⟨fun _ => id, fun hab hbc h => hbc (hab h)⟩

instance (w : World) : Lenient (FollowedFrom w) := ⟨fun hp h => h.trans hp.follows⟩

instance (w : World) : Forgetful (FollowedFrom w) := ⟨fun _ => id⟩

/-- The world has grown. -/
def Grown (m m' : Machine) : Prop := m.world.Grows m'.world

instance : Frame Grown := ⟨fun m => .refl m.world, World.Grows.trans⟩

instance : Kernel Grown := ⟨World.Still.grows⟩

theorem Rebound.followed {m m' : Machine} (h : Rebound m m') : Followed m m' := h.plain.follows

/-- A wait for a process that is not among the earlier ones leaves these alone. -/
theorem World.Follows.reaped {w : World} {m : Machine} (h : w.Follows m.world) {pid : Nat}
    (hpid : w.nextPid ≤ pid) (raw : Nat) : w.Follows (m.reaped pid raw).world where
  grows := h.grows.trans (.of_eq rfl rfl rfl rfl)
  journal := h.journal.trans ⟨_, rfl⟩
  nextPid := h.nextPid
  faults := h.faults
  ended := by
    show (List.filter _ (List.filter _ _)) = _
    rw [List.filter_filter, ← h.ended]
    refine List.filter_congr fun e _ => ?_
    by_cases he : e.1 = pid
    · have hle : ¬ e.1 < w.nextPid := by omega
      simp [hle]
    · simp [he]
  sane hs e he := h.sane hs e (List.mem_filter.1 he).1

theorem Lived.followed {work : Act ChildEnd} (hw : Keeps Followed work) {raw : Nat}
    {m m' : Machine} (h : Lived work m raw m') : Followed m m' :=
  (hw m).trans (h.after (R := Followed) fun m _ => .note m.world _)

/-- A child finds what its maker had. -/
theorem Machine.followed_born (m : Machine) : Followed m m.born where
  grows := .of_eq rfl rfl rfl rfl
  journal := by
    show _ <+: (_ ++ _) ++ _
    rw [List.append_assoc]
    exact ⟨_, rfl⟩
  nextPid := Nat.le_succ _
  faults := rfl
  ended := rfl
  sane hs e he := Nat.lt_succ_of_lt (hs e he)

/-- What a maker finds after a child follows from what it had. -/
theorem World.Follows.outlived {m : Machine} {w : World} (h : m.born.world.Follows w) (raw : Nat) :
    m.world.Follows (m.outlived w raw).world := by
  have hw : m.world.Follows w := m.followed_born.trans h
  exact {
    grows := hw.grows.trans (.of_eq rfl rfl rfl rfl)
    journal := hw.journal
    nextPid := hw.nextPid
    faults := hw.faults
    ended := by
      show List.filter _ (w.ended ++ [(m.world.nextPid, raw)]) = _
      simp [List.filter_append, ← hw.ended]
    sane := fun hs e he => by
      rcases List.mem_append.1 he with he | he
      · exact hw.sane hs e he
      · obtain rfl := List.mem_singleton.1 he
        exact h.nextPid }

/-- What a child leaves follows from what its maker had. -/
theorem Birth.followed {work : Act ChildEnd} (hw : Keeps Followed work) {raw : Nat}
    {m m' : Machine} (h : Birth work raw m m') :
    Followed m m' ∧ m.world.nextPid < m'.world.nextPid := by
  obtain ⟨dead, hlived, hq⟩ := h
  have hlife : m.born.world.Follows dead.world := hlived.followed hw
  refine ⟨(hlife.outlived raw).trans hq.plain.follows, ?_⟩
  rw [hq.plain.nextPid]
  exact hlife.nextPid

/-- The two children of a pair, and the numbers to wait for. -/
theorem Births.followed {x y : Act ChildEnd} (hx : Keeps Followed x) (hy : Keeps Followed y)
    {m m' : Machine} {r : List Nat × Option Failure} (h : Births x y m r m') :
    Followed m m' ∧ ∀ pid ∈ r.1, m.world.nextPid ≤ pid := by
  cases h with
  | none e => exact ⟨(m.barren_quiet e).plain.follows, by simp⟩
  | one hbx e =>
    obtain ⟨hfx, -⟩ := hbx.followed hx
    exact ⟨hfx.trans (Machine.barren_quiet _ e).plain.follows, by simp⟩
  | two hbx hby =>
    obtain ⟨hfx, -⟩ := hbx.followed hx
    obtain ⟨hfy, -⟩ := hby.followed hy
    exact ⟨hfx.trans hfy, by simpa using hfx.nextPid⟩

namespace Act.Keeps

variable {α : Type}

theorem grown {a : Act α} (h : Keeps Still a) : Keeps Grown a := h.mono fun _ _ h => h.grows

theorem grows {a : Act α} (h : Keeps Followed a) : Keeps Grown a :=
  h.mono fun _ _ h => h.grows

theorem rebound_followed {a : Act α} (h : Keeps Rebound a) : Keeps Followed a :=
  h.mono fun _ _ h => h.followed

theorem await_followedFrom {w : World} {pid : Nat} (hpid : w.nextPid ≤ pid) :
    Keeps (FollowedFrom w) (LineShell.await pid) := by
  intro m h
  rcases await_cases pid m with ⟨e, ha, -⟩ | ⟨raw, m', -, hq, ha⟩
  · rw [after_of_error ha]
    exact (h.trans (World.Plain.counted m .wait).follows).trans (.note _ _)
  · rw [after_of_ok ha]
    exact (h.reaped hpid raw).trans hq.plain.follows

theorem changeDirectory_followed (c : Command) : Keeps Followed (LineShell.changeDirectory c) :=
  .changeDirectory_of (.getcwd_of fun m _ => .note m.world _)
    (fun _ => .chdir_of (fun m _ => .note m.world _) fun m _ => .refl m.world)
    (fun _ _ _ m => .refl m.world) c

theorem runChild_followed (c : Command) : Keeps Followed (runChild c) :=
  .runChild_of (fun _ _ => Rebound.followed) (fun m _ => .note m.world _)
    (fun m _ => .note m.world _) c

theorem spawn_followed {work : Act ChildEnd} (h : Keeps Followed work) :
    Keeps Followed (LineShell.spawn work) := by
  intro m
  rcases spawn_cases work m with ⟨e, hs⟩ | ⟨raw, m', hs, hb⟩
  · rw [after_of_error hs]
    exact Forgetful.quiet (m.barren_quiet e)
  · rw [after_of_ok hs]
    exact (hb.followed h).1

theorem runExternal_followed (c : Command) : Keeps Followed (runExternal c) := by
  intro m
  unfold after
  rcases runExternal_cases c m with ⟨e, hr⟩ | ⟨raw, m₁, hb, hr⟩
  · rw [hr]
    exact Frame.trans (Forgetful.quiet (m.barren_quiet e)) (Keeps.withoutChild c e _)
  · rw [hr]
    obtain ⟨hf, -⟩ := hb.followed (runChild_followed c)
    exact await_followedFrom (Nat.le_refl _) m₁ hf

section Operators

variable {a b : Act Status} (ha : Keeps Followed a) (hb : Keeps Followed b)
include ha hb

theorem piped_followed : Keeps Followed (LineShell.piped a b) := by
  have hside {c : Act Status} (h : Keeps Followed c) (fd standard r w : Nat) :
      Keeps Followed (pipeSide c fd standard r w) :=
    .bind (Keeps.bindStream _ _ _).rebound_followed fun _ => .bind h fun _ => .pure _
  intro m
  unfold after
  rcases piped_cases a b m with ⟨e, -, hr⟩ | ⟨r, w, m₁, pids, failure, m₂, hc, hbirths, hr⟩
  · rw [hr]
    exact Frame.trans (Forgetful.quiet (m.unpiped_quiet e)) (Keeps.withoutPipe e _)
  · rw [hr]
    have h₁ := Keeps.createChannel.rebound_followed.of_ok hc
    obtain ⟨h₂, hpids⟩ := hbirths.followed (hside ha _ _ _ _) (hside hb _ _ _ _)
    refine Keeps.finishPipe (R := FollowedFrom m.world) ?_ (fun pid hpid => ?_) failure m₂
      (h₁.trans h₂)
    · exact (Keeps.closeAll _).mono fun _ _ hk h => h.trans hk.followed
    · exact await_followedFrom (Nat.le_trans h₁.nextPid (hpids pid hpid))

theorem inParallel_followed : Keeps Followed (LineShell.inParallel a b) := by
  intro m
  unfold after
  obtain ⟨pids, failure, m₁, hbirths, hr⟩ := inParallel_cases a b m
  rw [hr]
  obtain ⟨h₁, hpids⟩ := hbirths.followed (.bind ha fun _ => .pure _) (.bind hb fun _ => .pure _)
  exact Keeps.finishParallel (R := FollowedFrom m.world)
    (fun pid hpid => await_followedFrom (hpids pid hpid)) failure m₁ h₁

theorem combine_followed (op : Operator) : Keeps Followed (LineShell.combine op a b) :=
  .combine_of ha hb (piped_followed ha hb) (inParallel_followed ha hb) op

end Operators

end Act.Keeps

/-- Whatever a tree does and whatever fails, what it leaves follows from what it found. -/
theorem execute_followed (rules : Rules) (t : Tree) (level : Int) :
    Keeps Followed (execute rules t level) := by
  refine .execute_of (fun mark c level => ?_) (fun _ _ => .piped_followed)
    (fun _ _ => .inParallel_followed) t level
  exact .runLeaf_of (fun m _ _ => .note m.world _) (fun _ _ m => .refl m.world)
    .changeDirectory_followed .runExternal_followed rules mark c level

/-- Nothing has ended in a new session. -/
theorem Machine.boot_sane (files : FileTree) (cwd : Place) (input : Bytes) (closed : List Nat)
    (faults : List Fault) (table : Table) :
    (Machine.boot files cwd input closed faults table).world.Sane := nofun

end LineShell
