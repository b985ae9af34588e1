import LineShell.Proofs.PipeSides
import LineShell.Proofs.Unhindered

/-!
# Runs that get what they ask for

A run asks the system for children and for channels. Where none of these calls fails, every
command that is a program has its child, every pipe its channel and its two children, and every
parallel pair its two children, whatever else goes wrong. What is granted to a run is granted to
each part of it, and so to the children that are made on the way.

## The model

`Granted` says of two machines that no call failed between them that was to make a child or a
channel, or that none is still to come that is planned to fail. The first can be read off a run
that is over; the second can be known before it begins. Either is passed on.

## What is proved

* What is granted in a run is granted in a part of it (`Granted.within`, `Granted.first`,
  `Granted.rest`), and to a child that is made (`Granted.born`).
* A child, a channel and two children that are to be made are made (`Granted.exists_spawn`,
  `Granted.exists_channel`, `Granted.exists_children`), and so a command, a pipe and a parallel
  pair come to what they come to with all of these (`Granted.exists_child`, `Granted.exists_pipe`,
  `Granted.exists_branches`).

Other calls may fail: a stream that cannot be bound, or a wait. So the sides of a pipe that has
all it asked for may still not run.
-/

namespace LineShell

open Act

/-! ### Runs in which children and channels can be made -/

/-- A call failed that was to make a child or a channel. -/
def Entry.Refuses (e : Entry) : Prop := e.failed? = some .fork ∨ e.failed? = some .pipe

instance (e : Entry) : Decidable e.Refuses := inferInstanceAs (Decidable (_ ∨ _))

/-- From one machine to another no call failed that was to make a child or a channel; or none is still
to come that is planned to fail. -/
def Granted (m m' : Machine) : Prop :=
  m.world.Clear .fork ∧ m.world.Clear .pipe ∨ ∀ e ∈ m.since m', ¬e.Refuses

namespace Granted

variable {a b c d m n : Machine}

/-- What is granted in a run is granted in a part of it. -/
theorem within (h : Granted a d) (honward : Onward a b) (hfirst : Recorded a b) (hlast : Recorded c d) :
    Granted b c := by
  rcases h with ⟨hfork, hpipe⟩ | hfree
  · exact Or.inl ⟨honward.clear hfork, honward.clear hpipe⟩
  · exact Or.inr fun e he => hfree e (hfirst.mem_rest (hlast.mem_first he))

theorem first (h : Granted a c) (hbc : Recorded b c) : Granted a b :=
  h.within (.refl a) (Frame.refl a) hbc

theorem rest (h : Granted a c) (hab : Proceeds a b) : Granted b c :=
  h.within hab.onward hab.recorded (Frame.refl c)

/-- A child that is to be made is made. -/
theorem exists_spawn {work : Act ChildEnd} (h : Granted m n)
    (hrest : Recorded ((spawn work).after m) n) : ∃ m', spawn work m = .ok m.world.nextPid m' := by
  rcases h with ⟨hfork, -⟩ | hfree
  · obtain ⟨raw, m', hs, -⟩ := spawn_of_clear hfork work
    exact ⟨m', hs⟩
  · rcases spawn_cases work m with ⟨e, hs⟩ | ⟨raw, m', hs, -⟩
    · rw [after_of_error hs] at hrest
      have hcounted : Recorded m (m.counted .fork) := List.prefix_refl _
      exact absurd (Or.inl rfl) (hfree _ (hrest.mem_first (Machine.mem_since_note hcounted _)))
    · exact ⟨m', hs⟩

/-- A channel that is to be made is made. -/
theorem exists_channel (h : Granted m n) (hrest : Recorded (createChannel.after m) n) :
    ∃ r w m', createChannel m = .ok (r, w) m' := by
  rcases h with ⟨-, hpipe⟩ | hfree
  · exact createChannel_of_clear hpipe
  · rcases createChannel_cases m with ⟨e, hc⟩ | hc
    · rw [after_of_error hc] at hrest
      have hcounted : Recorded m (m.counted .pipe) := List.prefix_refl _
      exact absurd (Or.inr rfl) (hfree _ (hrest.mem_first (Machine.mem_since_note hcounted _)))
    · exact hc

/-- What is granted to the maker of a child is granted to the child. -/
theorem born {work : Act ChildEnd} {pid : Nat} (h : Granted m n) (hspawn : spawn work m = .ok pid n) :
    Granted m.born (work.after m.born) := by
  obtain ⟨r, raw, htold⟩ := spawn_eq_ok hspawn
  have hend : Recorded (work.after m.born) ((conclude r).after (work.after m.born)) :=
    Keeps.conclude_of (fun _ _ => ⟨[_], rfl⟩) r _
  have hmaker : Recorded (m.outlived ((conclude r).after (work.after m.born)).world raw) n :=
    (Keeps.tellChild _).of_ok htold
  have hout : Recorded ((conclude r).after (work.after m.born)) n := hmaker
  exact h.within (.born m) m.followed_born.journal (Frame.trans hend hout)

end Granted

/-! ### Children that are made -/

/-- What is told of making a first child is told of making it and others. -/
theorem spawn_after_recorded (work : Act ChildEnd) {works : List (Act ChildEnd)}
    (h : ∀ w ∈ works, Keeps Proceeds w) (m : Machine) :
    Recorded ((spawn work).after m) ((spawnAll (work :: works)).after m) := by
  have hrest : Keeps Recorded (spawnAll works) :=
    (Keeps.spawnAll_proceeds h).mono fun _ _ => Proceeds.recorded
  rw [after, after, spawnAll_cons]
  cases spawn work m with
  | error e m' => exact Frame.refl m'
  | ok pid m' => exact Keeps.bind hrest (fun _ => .pure _) m'

/-- Two children that are to be made are made. -/
theorem Granted.exists_children {x y : Act ChildEnd} {m n : Machine} (h : Granted m n)
    (hx : Keeps Proceeds x) (hy : Keeps Proceeds y) (hrest : Recorded ((spawnAll [x, y]).after m) n) :
    ∃ m₁ m₂, spawn x m = .ok m.world.nextPid m₁ ∧ spawn y m₁ = .ok m₁.world.nextPid m₂ := by
  have hfirst : Recorded ((spawn x).after m) ((spawnAll [x, y]).after m) :=
    spawn_after_recorded x (by simpa using hy) m
  obtain ⟨m₁, hsx⟩ := h.exists_spawn (Frame.trans hfirst hrest)
  have hboth : (spawnAll [x, y]).after m
      = (spawnAll [y] >>= fun r => pure (m.world.nextPid :: r.1, r.2)).after m₁ := by
    rw [after, spawnAll_cons, hsx]
    rfl
  have hsecond : Recorded ((spawn y).after m₁) ((spawnAll [y]).after m₁) :=
    spawn_after_recorded y (by simp) m₁
  have hlast : Recorded ((spawnAll [y]).after m₁) ((spawnAll [x, y]).after m) :=
    hboth ▸ Keeps.rest (fun _ => .pure _) m₁
  obtain ⟨m₂, hsy⟩ := (h.rest ((Keeps.spawn_proceeds hx).of_ok hsx)).exists_spawn
    (Frame.trans hsecond (Frame.trans hlast hrest))
  exact ⟨m₁, m₂, hsx, hsy⟩

/-- A command that is a program, and is granted what it asks for, makes its child. -/
theorem Granted.exists_child {c : Command} {m : Machine} (h : Granted m ((runExternal c).after m)) :
    ∃ m₁, spawn (runChild c) m = .ok m.world.nextPid m₁ ∧
      runExternal c m = await m.world.nextPid m₁ := by
  have hfirst : Recorded ((spawn (runChild c)).after m) ((runExternal c).after m) := by
    rw [← after_attempt]
    refine Keeps.rest (fun made => ?_) m
    split
    · exact await_recorded _
    · exact .bind (.error _ _ _) fun _ => .bind (.report _) fun _ => .pure _
    · exact .throw _
  obtain ⟨m₁, hs⟩ := h.exists_spawn hfirst
  refine ⟨m₁, hs, ?_⟩
  unfold runExternal
  rw [bind_eq, attempt_of_ok hs]

section Pairs

variable {a b : Act Status} {m m₁ m₂ : Machine}

theorem inParallel_of_spawned (hx : spawn (sideWork a) m = .ok m.world.nextPid m₁)
    (hy : spawn (sideWork b) m₁ = .ok m₁.world.nextPid m₂) :
    inParallel a b m = finishParallel [m.world.nextPid, m₁.world.nextPid] none m₂ := by
  unfold inParallel
  rw [bind_eq, spawnAll_two hx hy]
  rfl

variable (ha : Keeps Proceeds a) (hb : Keeps Proceeds b)
include ha hb

/-- A pipe that is granted what it asks for makes its channel and its children. -/
theorem Granted.exists_pipe (h : Granted m ((piped a b).after m)) :
    ∃ r w m₁ m₂ m₃, PipeMade a b m r w m₁ m₂ m₃ := by
  have hfinish (r w : Nat) (made : List Nat × Option Failure) :
      Keeps Recorded (finishPipe r w made.1 made.2) :=
    .finishPipe (Keeps.closeAll _).recorded (fun pid _ => await_recorded pid) made.2
  have hsides (r w : Nat) : Keeps Proceeds (pipeSide a w 1 r w) ∧ Keeps Proceeds (pipeSide b r 0 r w) :=
    ⟨.pipeSide_proceeds ha _ _ _ _, .pipeSide_proceeds hb _ _ _ _⟩
  have hmade (r w : Nat) : Keeps Recorded (spawnAll [pipeSide a w 1 r w, pipeSide b r 0 r w]) :=
    (Keeps.spawnAll_proceeds (by simpa using hsides r w)).mono fun _ _ => Proceeds.recorded
  have hchannel : Recorded (createChannel.after m) ((piped a b).after m) := by
    rw [← after_attempt]
    refine Keeps.rest (fun made => ?_) m
    split
    · exact .bind (.error _ _ _) fun _ => .bind (.report _) fun _ => .pure _
    · exact .throw _
    · exact .bind (hmade _ _) fun made => hfinish _ _ made
  obtain ⟨r, w, m₁, hc⟩ := h.exists_channel hchannel
  have hrest : Recorded ((spawnAll [pipeSide a w 1 r w, pipeSide b r 0 r w]).after m₁)
      ((piped a b).after m) := by
    rw [after_eq_of_eq (piped_of_channel hc)]
    exact Keeps.rest (hfinish r w) m₁
  obtain ⟨m₂, m₃, hx, hy⟩ := (h.rest (Keeps.createChannel_proceeds.of_ok hc)).exists_children
    (hsides r w).1 (hsides r w).2 hrest
  exact ⟨r, w, m₁, m₂, m₃, hc, hx, hy⟩

/-- A parallel pair that is granted what it asks for makes its children. -/
theorem Granted.exists_branches (h : Granted m ((inParallel a b).after m)) :
    ∃ m₁ m₂, spawn (sideWork a) m = .ok m.world.nextPid m₁ ∧
      spawn (sideWork b) m₁ = .ok m₁.world.nextPid m₂ := by
  have hfinish (made : List Nat × Option Failure) : Keeps Recorded (finishParallel made.1 made.2) :=
    .finishParallel (fun pid _ => await_recorded pid) made.2
  exact h.exists_children (.sideWork_proceeds ha) (.sideWork_proceeds hb) (Keeps.rest hfinish m)

end Pairs

end LineShell
