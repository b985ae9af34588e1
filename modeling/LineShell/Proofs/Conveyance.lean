import Mathlib.Data.List.Chain
import LineShell.Proofs.PipeSides

/-!
# What a pipe conveys

Where the right side of a pipe begins, its standard input holds what the left side wrote to the
channel, all of it and in this order, and nothing else. The left side cannot have taken any of it,
since no process of it has the read end on a descriptor, and no open file that the pipe found
leads to the channel, so what was written to it has come to none of them. This holds of all stages
of a pipeline, however its pipes are nested: what the stage in front of a pipe writes is what the
stage behind it reads.

## The model

* `FirstStage` and `LastStage` relate a run to that of the first and of the last stage in it:
  there the input, or the output, is that of the whole, and nothing was done to it in between.
* `PipeBegins` says that a pipe of trees is run and that both its sides begin, in which machines.
* `Conveys` is what is said of one pipe: its channel is new, its ends are on the output of the
  left stage and on the input of the right one, and what is sent is what is there to be received.
* `Joins` is the same of two stages that stand side by side. `Stages` are the stages of a run,
  each from the machine in which it begins to the one in which it ends; a pipe may be taken apart
  or left whole.

## What is proved

* Neither side uses its end of a channel but in the stage that stands beside the pipe, so what a
  channel holds is told by these two stages (`Piping.content_stages`).
* All that is in a channel can be read through its read end, once (`World.Ends.read_all`).
* What is said of a pipeline within a pipeline is true of the whole (`Joins.outwards`), so the
  stages of every pipeline form a chain in which neighbours are joined (`Stages.isChain`), however
  its pipes are nested. Where no call hinders, all stages run (`exists_stages`).
* Wherever in a tree a node begins, machines are orderly if they are at first (`Reaches.orderly`),
  so the main result holds of pipes at any depth.

## What is left out

What a stage makes of its input, and how it ends, is up to the stage. A channel holds all that was
written before it is read, so nothing is said of stages that run side by side.
-/

namespace LineShell

open Act

/-! ### The first and the last stage -/

/-- The first stage of what begins in a machine begins in another one: there, nothing has been done to
the input yet. -/
structure FirstStage (m k : Machine) : Prop where
  /-- The input is that of the whole. -/
  input : k.proc.fds.get? 0 = m.proc.fds.get? 0
  /-- Standard error is that of the whole. -/
  errors : k.proc.fds.get? 2 = m.proc.fds.get? 2
  /-- What was out of reach is out of reach. -/
  lacks : ∀ x, m.Lacks x → k.Lacks x
  /-- What comes through a channel on the way is all there. -/
  flows : ∀ n f g, Flows n f g m k
  /-- Nothing goes through an open file but where standard error leads. -/
  spares : ∀ x, m.proc.fds.get? 2 ≠ some x → Spares x m k

namespace FirstStage

variable {m k k' : Machine}

theorem of_bound (hfds : k.proc.fds = m.proc.fds) (hrun : Proceeds m k)
    (hmurmurs : ∀ x, Murmurs x m k) : FirstStage m k where
  input := by rw [hfds]
  errors := by rw [hfds]
  lacks x hx := (hx.within hrun).last
  flows n f g := hrun.flows n f g
  spares x hx := (hmurmurs x hx).2

theorem trans (h : FirstStage m k) (h' : FirstStage k k') : FirstStage m k' where
  input := h'.input.trans h.input
  errors := h'.errors.trans h.errors
  lacks x hx := h'.lacks x (h.lacks x hx)
  flows n f g := (h.flows n f g).trans (h'.flows n f g)
  spares x hx := Frame.trans (h.spares x hx) (h'.spares x (h.errors ▸ hx))

end FirstStage

instance : Frame FirstStage :=
  ⟨fun m => .of_bound rfl (.refl m) fun _ => Frame.refl m, FirstStage.trans⟩

/-- The run of a last stage within the run of a whole, each from its beginning to its end: what the whole
writes to its output, and to nothing else, is what the last stage writes. -/
structure LastStage (whole part : Machine × Machine) : Prop where
  /-- The output is that of the whole. -/
  output : part.1.proc.fds.get? 1 = whole.1.proc.fds.get? 1
  /-- Standard error is that of the whole. -/
  errors : part.1.proc.fds.get? 2 = whole.1.proc.fds.get? 2
  /-- What was out of reach is out of reach. -/
  lacks : ∀ x, whole.1.Lacks x → part.1.Lacks x
  /-- What at most the output leads to, at most the output leads to. -/
  onOutput : ∀ x, whole.1.OnOutput x → part.1.OnOutput x
  /-- Before and behind the last stage nothing goes through what at most the output leads to. -/
  spares : ∀ x, whole.1.OnOutput x → whole.1.proc.fds.get? 2 ≠ some x →
    Spares x whole.1 part.1 ∧ Spares x part.2 whole.2

namespace LastStage

variable {p q s : Machine × Machine}

theorem refl (p : Machine × Machine) : LastStage p p :=
  ⟨rfl, rfl, fun _ => id, fun _ => id, fun _ _ _ => ⟨Frame.refl _, Frame.refl _⟩⟩

theorem trans (h : LastStage p q) (h' : LastStage q s) : LastStage p s where
  output := h'.output.trans h.output
  errors := h'.errors.trans h.errors
  lacks x hx := h'.lacks x (h.lacks x hx)
  onOutput x hx := h'.onOutput x (h.onOutput x hx)
  spares x ho hx := by
    obtain ⟨hbefore, hbehind⟩ := h.spares x ho hx
    obtain ⟨hbefore', hbehind'⟩ := h'.spares x (h.onOutput x ho) (h.errors ▸ hx)
    exact ⟨Frame.trans hbefore hbefore', Frame.trans hbehind' hbehind⟩

/-- What the whole writes to its output is what the last stage writes. -/
theorem sent_eq (h : LastStage p q) (hrun : Recorded q.1 q.2) {x : Nat} (ho : p.1.OnOutput x)
    (hx : p.1.proc.fds.get? 2 ≠ some x) : sent x (p.1.since p.2) = sent x (q.1.since q.2) := by
  obtain ⟨hbefore, hbehind⟩ := h.spares x ho hx
  exact hbefore.sent_between hrun hbehind

end LastStage

namespace Piping

variable {a b : Act Status} {m m₁ m₂ m₃ k₁ k₂ : Machine} {r w : Nat}
  (h : Piping a b m r w m₁ m₂ m₃ k₁ k₂)
include h

theorem opened_left : m.world.opened.length ≤ k₁.world.opened.length :=
  (h.flows_left 0 0 0).widens.grows.opened_le

theorem opened_right (ha : Keeps Proceeds a) : m.world.opened.length ≤ k₂.world.opened.length :=
  Nat.le_trans h.made.widens.grows.opened_le (h.flows_right ha 0 0 0).widens.grows.opened_le

/-- What at most the output of a pipe leads to its left side does not have. -/
theorem lacks_output {x : Nat} (hx : m.OnOutput x) : k₁.Lacks x := by
  refine ⟨Nat.lt_of_lt_of_le hx.opened h.opened_left, fun fd hfd => ?_⟩
  rw [h.left_fds] at hfd
  by_cases hfd₁ : fd = 1
  · subst hfd₁
    rw [Descriptors.get?_set_self] at hfd
    have heq := Option.some.inj hfd
    have hlt := hx.opened
    omega
  · rw [Descriptors.get?_set_of_ne _ _ hfd₁] at hfd
    exact hfd₁ (hx.only fd hfd)

variable (hm : m.Orderly) (hs : Keeps (Steady 2) a)
include hm hs

/-- The left side of a pipe is where its first stage is. -/
theorem firstStage : FirstStage m k₁ where
  input := by rw [h.left_fds, Descriptors.get?_set_of_ne _ _ (by decide)]
  errors := h.errors_left
  lacks x hx := by
    refine ⟨Nat.lt_of_lt_of_le hx.opened h.opened_left, ?_⟩
    rw [h.left_fds]
    exact Descriptors.get?_set_ne hx.closed (by have := hx.opened; omega)
  flows n f g := h.flows_left n f g
  spares x hx := by
    obtain ⟨hmade, hbefore, -⟩ := h.spares_left hm hx hs
    exact Frame.trans hmade hbefore

/-- The right side of a pipe is where its last stage is. -/
theorem lastStage (ha : Keeps Proceeds a) (hs' : Keeps (Steady 2) b) :
    LastStage (m, (piped a b).after m) (k₂, b.after k₂) where
  output := by rw [h.right_fds, Descriptors.get?_set_of_ne _ _ (by decide)]
  errors := h.errors_right
  lacks x hx := by
    refine ⟨Nat.lt_of_lt_of_le hx.opened (h.opened_right ha), ?_⟩
    rw [h.right_fds]
    exact Descriptors.get?_set_ne hx.closed (Nat.ne_of_lt hx.opened)
  onOutput x hx := by
    refine ⟨Nat.lt_of_lt_of_le hx.opened (h.opened_right ha), fun fd hfd => ?_⟩
    rw [h.right_fds] at hfd
    rcases Descriptors.get?_set_cases hfd with rfl | hfd
    · exact absurd hx.opened (Nat.lt_irrefl _)
    · exact hx.only fd hfd
  spares x ho hx := by
    obtain ⟨hmade, hbefore, hbehind, -⟩ := h.spares_left hm hx hs
    obtain ⟨hrest, hend⟩ := h.spares_right hm hx hs hs'
    have hran : Spares x k₁ (a.after k₁) := ((h.lacks_output ho).within (ha k₁)).spares
    have hleft : Spares x m (a.after k₁) := Frame.trans hmade (Frame.trans hbefore hran)
    exact ⟨Frame.trans hleft (Frame.trans hbehind hrest), hend⟩

/-- Neither side uses its end of the channel but in the stage that stands beside the pipe: where the
first stage of the right side begins, the channel holds what the last stage of the left side wrote. -/
theorem content_stages (ha : Keeps Proceeds a) (hs' : Keeps (Steady 2) b) {left : Machine × Machine}
    {k : Machine} (hleft : LastStage (k₁, a.after k₁) left) (hrun : Recorded left.1 left.2)
    (hright : FirstStage k₂ k) :
    k.world.content m.world.channels.length
      = sent (m.world.opened.length + 1) (left.1.since left.2) := by
  obtain ⟨hends, hcontent⟩ := h.content_eq hm ha hs hs'
  have hspares {x : Nat} (hx : m.world.opened.length ≤ x) : Spares x k₂ k := by
    refine hright.spares x ?_
    rw [h.errors_right]
    exact hm.get?_ne hx 2
  have herrors : k₁.proc.fds.get? 2 ≠ some (m.world.opened.length + 1) := by
    rw [h.errors_left]
    exact hm.get?_ne (Nat.le_succ _) 2
  rw [(hright.flows _ _ _).content_eq hends (hspares (Nat.le_refl _)) (hspares (Nat.le_succ _)), hcontent]
  exact hleft.sent_eq hrun (h.onOutput_left hm) herrors

end Piping

/-! ### Pipes of trees -/

/-- Both sides of a pipe that is run begin: the left one in `k₁`, the right one in `k₂`. -/
structure PipeBegins (rules : Rules) (mark : Option Nat) (l r : Tree) (level : Int)
    (m k₁ k₂ : Machine) : Prop where
  /-- The pipe is run. -/
  admits : rules.Admits .pipe (.binary mark .pipe l r) level
  /-- The left side begins. -/
  left : BeginsLeft (execute rules l (level + 1)) ((Tree.binary mark .pipe l r).told level m) .pipe k₁
  /-- The right side begins. -/
  right : BeginsRight (execute rules l (level + 1)) (execute rules r (level + 1))
    ((Tree.binary mark .pipe l r).told level m) .pipe k₂

theorem Tree.told_pair {R : Machine → Machine → Prop} [Logs R] (mark : Option Nat) (op : Operator)
    (l r : Tree) (level : Int) (m : Machine) : R m ((Tree.binary mark op l r).told level m) :=
  Keeps.debug _ _ m

theorem Machine.Orderly.told {m : Machine} (hm : m.Orderly) (mark : Option Nat) (op : Operator)
    (l r : Tree) (level : Int) : ((Tree.binary mark op l r).told level m).Orderly where
  toTidy := hm.proceeds (Tree.told_pair mark op l r level m)
  errors := by
    have hfds : Bound m _ := Tree.told_pair mark op l r level m
    rw [hfds]
    exact hm.errors

/-- What one stage of a pipeline writes to its output goes through a channel to the input of the next
one. The pipeline is run from `m` on; the run of the first one of the two stages is `left`, and that of
the next one `right`, each from its beginning to its end. The ends of the channel are the open files `f`
and `g`. -/
structure Conveys (n f g : Nat) (m : Machine) (left right : Machine × Machine) : Prop where
  /-- The channel was made by the pipeline. -/
  fresh : m.world.channels.length ≤ n
  /-- No open file that the pipeline found leads to it, its output least of all. -/
  elsewhere : ∀ (i : Nat) file, m.world.opened[i]? = some file → ¬file.EndOf n
  /-- Its ends are the open files, and no other open file leads to it. -/
  ends : right.1.world.Ends n f g
  /-- The write end is the output of the first stage. -/
  output : left.1.proc.fds.get? 1 = some g
  /-- The read end is the input of the next stage. -/
  input : right.1.proc.fds.get? 0 = some f
  /-- Where the next stage begins it can read, up to the end, exactly what the first stage wrote to the
  channel, in the order of the writes. -/
  reads : ∃ k k', right.1.read 0 id = .ok (sent g (left.1.since left.2), k) ∧
    k.read 0 id = .ok ([], k')
  /-- The first stage did not take any of it. -/
  unread : received f (left.1.since left.2) = []
  /-- No process of the first stage has the read end on a descriptor at any time. -/
  closed : Within (·.Lacks f) left.1 left.2
  /-- No process of the next stage has the write end on a descriptor at any time. -/
  ended : Within (·.Lacks g) right.1 right.2
  /-- All that the first stage did was done by its process or by one that was made on the way. -/
  own : Own left.1 left.2
  /-- No process of the first stage has on a descriptor what at most the output of the pipeline led to. -/
  spared : ∀ o, m.OnOutput o → Within (·.Lacks o) left.1 left.2

/-- What one stage writes is what the next one reads. -/
def Joins (m : Machine) (left right : Machine × Machine) : Prop := ∃ n f g, Conveys n f g m left right

/-- What is said of a pipeline within a pipeline is true of the whole one. -/
theorem Joins.outwards {m k : Machine} {left right : Machine × Machine} (h : Joins k left right)
    (hmk : Widens m k) (ho : ∀ o, m.OnOutput o → k.OnOutput o) : Joins m left right := by
  obtain ⟨n, f, g, h⟩ := h
  refine ⟨n, f, g, { h with
    fresh := Nat.le_trans hmk.grows.channels h.fresh
    elsewhere := fun i file hfile hend => ?_
    spared := fun o hm => h.spared o (ho o hm) }⟩
  obtain ⟨file', hfile', htarget, -⟩ := hmk.grows.opened i file hfile
  exact h.elsewhere i file' hfile' (by rwa [OpenFile.EndOf, htarget])

/-- All that is in a channel can be read through a descriptor that leads to its read end. -/
theorem World.Ends.read {m : Machine} {n f g fd : Nat} (h : m.world.Ends n f g)
    (hfd : m.proc.fds.get? fd = some f) : ∃ k, m.read fd id = .ok (m.world.content n, k) ∧
      k.proc = m.proc ∧ k.world.Ends n f g ∧ k.world.content n = [] := by
  obtain ⟨file, hfile, htarget, hwrites⟩ := h.reader
  let taken : World :=
    { m.world with channels := m.world.channels.modify n (·.drop (m.world.content n).length) }
  let k : Machine := { m with world := taken.note (.took m.proc.pid f (m.world.content n)) }
  have hread : m.read fd id = .ok (m.world.content n, k) := by
    simp only [Machine.read, hfd, World.read, hfile, hwrites, htarget]
    rfl
  have hchannels : k.world.channels
      = m.world.channels.modify n (·.drop (m.world.content n).length) := rfl
  refine ⟨k, hread, rfl, (Step.read (fun _ => List.prefix_rfl) hread).widens.ends h, ?_⟩
  rw [World.content_modify hchannels n h.channel, if_pos rfl, List.drop_length]

/-- What is in a channel can be read once, and then there is no more. -/
theorem World.Ends.read_all {m : Machine} {n f g fd : Nat} (h : m.world.Ends n f g)
    (hfd : m.proc.fds.get? fd = some f) :
    ∃ k k', m.read fd id = .ok (m.world.content n, k) ∧ k.read fd id = .ok ([], k') := by
  obtain ⟨k, hread, hproc, hends, hempty⟩ := h.read hfd
  obtain ⟨k', hread', -⟩ := hends.read (hproc ▸ hfd)
  exact ⟨k, k', hread, hempty ▸ hread'⟩

namespace PipeBegins

variable {rules : Rules} {mark : Option Nat} {l r : Tree} {level : Int} {m k₁ k₂ : Machine}
  (h : PipeBegins rules mark l r level m k₁ k₂)
include h

theorem widens_right : Widens m k₂ := by
  obtain ⟨_, _, _, _, _, hp⟩ := exists_piping h.left h.right
  have htold : Proceeds m ((Tree.binary mark .pipe l r).told level m) :=
    Tree.told_pair mark .pipe l r level m
  refine htold.widens.trans (hp.made.widens.trans ?_)
  exact (hp.flows_right (execute_proceeds rules l _) 0 0 0).widens

variable (hm : m.Orderly)
include hm

theorem orderly_left : k₁.Orderly := h.left.orderly (hm.told mark .pipe l r level)

theorem orderly_right : k₂.Orderly :=
  h.right.orderly (hm.told mark .pipe l r level) (execute_proceeds rules l _)
    (execute_steady rules l _ 2)

theorem firstStage : FirstStage m k₁ := by
  obtain ⟨_, _, _, _, _, hp⟩ := exists_piping h.left h.right
  have htold : FirstStage m ((Tree.binary mark .pipe l r).told level m) :=
    .of_bound (Tree.told_pair (R := Bound) mark .pipe l r level m)
      (Tree.told_pair mark .pipe l r level m) fun _ => Tree.told_pair mark .pipe l r level m
  exact htold.trans (hp.firstStage (hm.told mark .pipe l r level) (execute_steady rules l _ 2))

/-- What a pipe does for its channel and its children is all that it does but for the log. -/
theorem piped_lastStage :
    LastStage (m, (execute rules (.binary mark .pipe l r) level).after m)
      ((Tree.binary mark .pipe l r).told level m,
        (piped (execute rules l (level + 1)) (execute rules r (level + 1))).after
          ((Tree.binary mark .pipe l r).told level m)) := by
  have hrun : Proceeds m ((Tree.binary mark .pipe l r).told level m) :=
    Tree.told_pair mark .pipe l r level m
  have hfds : Bound m ((Tree.binary mark .pipe l r).told level m) :=
    Tree.told_pair mark .pipe l r level m
  refine ⟨by rw [hfds], by rw [hfds], fun x hx => (hx.within hrun).last, fun x hx => ?_, fun x _ hx => ?_⟩
  · exact ⟨Nat.lt_of_lt_of_le hx.opened hrun.widens.grows.opened_le, by rw [hfds]; exact hx.only⟩
  · have htold : Murmurs x m ((Tree.binary mark .pipe l r).told level m) :=
      Tree.told_pair mark .pipe l r level m
    refine ⟨(htold hx).2, ?_⟩
    rw [after_eq_of_eq (execute_of_admits h.admits m)]
    refine (Keeps.rest (R := Murmurs x) (fun s => .bind (.debug _ _) fun _ => .remember s) _ ?_).2
    have hsteady := Keeps.piped_steady (execute rules l (level + 1)) (execute rules r (level + 1)) 2 _
      (hm.told mark .pipe l r level).errors
    show (after (piped _ _) _).proc.fds.get? 2 ≠ some x
    rw [hsteady, hfds]
    exact hx

theorem lastStage : LastStage (m, (execute rules (.binary mark .pipe l r) level).after m)
    (k₂, (execute rules r (level + 1)).after k₂) := by
  obtain ⟨_, _, _, _, _, hp⟩ := exists_piping h.left h.right
  refine (h.piped_lastStage hm).trans ?_
  exact hp.lastStage (hm.told mark .pipe l r level) (execute_steady rules l _ 2)
    (execute_proceeds rules l _) (execute_steady rules r _ 2)

theorem widens_left : Widens m k₁ := ((h.firstStage hm).flows 0 0 0).widens

/-- What at most the output of a pipe leads to its left side does not have. -/
theorem lacks_output {o : Nat} (ho : m.OnOutput o) : k₁.Lacks o := by
  obtain ⟨_, _, _, _, _, hp⟩ := exists_piping h.left h.right
  exact hp.lacks_output ((h.piped_lastStage hm).onOutput o ho)

/-- The last stage of the left side and the first stage of the right side are joined by the channel of
the pipe. -/
theorem joins {left right : Machine × Machine}
    (hleft : LastStage (k₁, (execute rules l (level + 1)).after k₁) left)
    (hright : FirstStage k₂ right.1) (hrun : Proceeds left.1 left.2) (hrun' : Proceeds right.1 right.2) :
    Joins m left right := by
  obtain ⟨_, _, _, _, _, hp⟩ := exists_piping h.left h.right
  have htold := hm.told mark .pipe l r level
  have hstart : Proceeds m ((Tree.binary mark .pipe l r).told level m) :=
    Tree.told_pair mark .pipe l r level m
  have hproceeds := execute_proceeds rules l (level + 1)
  have hsteady (u : Tree) := execute_steady rules u (level + 1) 2
  generalize (Tree.binary mark .pipe l r).told level m = n at hp htold hstart
  obtain ⟨hends, -⟩ := hp.content_eq htold hproceeds (hsteady l) (hsteady r)
  have hfresh : m.world.channels.length ≤ n.world.channels.length := hstart.widens.grows.channels
  have houtput : left.1.proc.fds.get? 1 = some (n.world.opened.length + 1) := by
    rw [hleft.output, hp.left_fds, Descriptors.get?_set_self]
  have hinput : right.1.proc.fds.get? 0 = some n.world.opened.length := by
    rw [hright.input, hp.right_fds, Descriptors.get?_set_self]
  have hends' := (hright.flows 0 0 0).widens.ends hends
  have hclosed := (hleft.lacks _ (hp.lacks_left htold)).within hrun
  refine ⟨n.world.channels.length, n.world.opened.length, n.world.opened.length + 1, {
    fresh := hfresh
    elsewhere := fun i file hfile hend => ?_
    ends := hends'
    output := houtput
    input := hinput
    reads := ?_
    unread := received_eq_nil fun e he => hclosed.spares.of_mem_since he
    closed := hclosed
    ended := (hright.lacks _ (hp.lacks_right htold hproceeds)).within hrun'
    own := hrun.own
    spared := fun o ho => (hleft.lacks o (h.lacks_output hm ho)).within hrun }⟩
  · exact Nat.not_lt.2 hfresh (hm.channels i file _ hfile hend)
  · rw [← hp.content_stages htold (hsteady l) hproceeds (hsteady r) hleft hrun.recorded hright]
    exact hends'.read_all hinput

end PipeBegins

/-- Wherever in a tree a node begins, machines are orderly. -/
theorem Reaches.orderly {rules : Rules} {t : Tree} {around : Context} {level k : Int} {m n : Machine}
    (h : Reaches rules t around level m k n) (hm : m.Orderly) : n.Orderly := by
  induction h with
  | hole _ _ => exact hm
  | left _ hbegins _ ih => exact ih (hbegins.orderly (hm.told _ _ _ _ _))
  | right _ hbegins _ ih =>
    exact ih (hbegins.orderly (hm.told _ _ _ _ _) (execute_proceeds rules _ _)
      (execute_steady rules _ _ 2))

/-! ### Pipelines -/

/-- A run of a tree as that of a pipeline: the runs of its stages in their order, each from the machine
in which it begins to the one in which it ends. Each pipe may be taken apart into the stages of its left
side and those of its right side, or be left whole, as one stage. -/
inductive Stages (rules : Rules) : Tree → Int → Machine → List (Machine × Machine) → Prop where
  /-- The tree is one stage. -/
  | whole (t : Tree) (level : Int) (m : Machine) :
      Stages rules t level m [(m, (execute rules t level).after m)]
  /-- The stages of the left side stand before those of the right side. -/
  | pipe {mark : Option Nat} {l r : Tree} {level : Int} {m k₁ k₂ : Machine}
      {ls rs : List (Machine × Machine)} (h : PipeBegins rules mark l r level m k₁ k₂)
      (hl : Stages rules l (level + 1) k₁ ls) (hr : Stages rules r (level + 1) k₂ rs) :
      Stages rules (.binary mark .pipe l r) level m (ls ++ rs)

namespace Stages

variable {rules : Rules} {t : Tree} {level : Int} {m : Machine} {stages : List (Machine × Machine)}

theorem proceeds (h : Stages rules t level m stages) : ∀ s ∈ stages, Proceeds s.1 s.2 := by
  induction h with
  | whole t level m => simpa using execute_proceeds rules t level m
  | pipe _ _ _ ihl ihr =>
    intro s hs
    rcases List.mem_append.1 hs with hs | hs
    · exact ihl s hs
    · exact ihr s hs

theorem exists_first (h : Stages rules t level m stages) (hm : m.Orderly) :
    ∃ s rest, stages = s :: rest ∧ FirstStage m s.1 := by
  induction h with
  | whole t level m => exact ⟨_, [], rfl, Frame.refl m⟩
  | pipe hbegins _ _ ihl _ =>
    obtain ⟨s, rest, rfl, hs⟩ := ihl (hbegins.orderly_left hm)
    exact ⟨s, _, rfl, (hbegins.firstStage hm).trans hs⟩

theorem exists_last (h : Stages rules t level m stages) (hm : m.Orderly) :
    ∃ rest s, stages = rest ++ [s] ∧ LastStage (m, (execute rules t level).after m) s := by
  induction h with
  | whole t level m => exact ⟨[], _, rfl, .refl _⟩
  | pipe hbegins _ _ _ ihr =>
    obtain ⟨rest, s, rfl, hs⟩ := ihr (hbegins.orderly_right hm)
    exact ⟨_, s, (List.append_assoc ..).symm, (hbegins.lastStage hm).trans hs⟩

/-- What each stage writes is what the next one reads. The induction is on how the stages were taken
apart: a pipe joins the last stage of its left side with the first one of its right side. -/
theorem isChain (h : Stages rules t level m stages) (hm : m.Orderly) : stages.IsChain (Joins m) := by
  induction h with
  | whole t level m => exact .singleton _
  | pipe hbegins hl hr ihl ihr =>
    have hleft := hbegins.orderly_left hm
    have hright := hbegins.orderly_right hm
    refine .append ((ihl hleft).imp fun p q hpq => ?_) ((ihr hright).imp fun p q hpq => ?_) ?_
    · exact hpq.outwards (hbegins.widens_left hm) fun o ho => (hbegins.lacks_output hm ho).onOutput
    · exact hpq.outwards hbegins.widens_right fun o ho => (hbegins.lastStage hm).onOutput o ho
    · intro p hp q hq
      obtain ⟨rest, p', rfl, hlast⟩ := hl.exists_last hleft
      obtain ⟨q', rest', rfl, hfirst⟩ := hr.exists_first hright
      obtain rfl : p' = p := by simpa using hp
      obtain rfl : q' = q := by simpa using hq
      exact hbegins.joins hm hlast hfirst (hl.proceeds _ (by simp)) (hr.proceeds _ (by simp))

end Stages

/-- A pipe that is run and that no call hinders has both of its sides begin. -/
theorem exists_pipeBegins {rules : Rules} {mark : Option Nat} {l r : Tree} {level : Int} {m : Machine}
    (hadmits : rules.Admits .pipe (.binary mark .pipe l r) level)
    (hfree : ∀ e ∈ m.since ((execute rules (.binary mark .pipe l r) level).after m), ¬e.Hinders) :
    ∃ k₁ k₂, PipeBegins rules mark l r level m k₁ k₂ := by
  have hsides := unhindered_sides hadmits hfree
  obtain ⟨k₁, k₂, hleft, hright⟩ :=
    exists_begins (execute_followed rules l _) (execute_followed rules r _) hsides
  exact ⟨k₁, k₂, hadmits, hleft, hright⟩

/-- What is told of the run of a side is told of the run of the pipe. -/
theorem PipeBegins.mem_since {rules : Rules} {mark : Option Nat} {l r : Tree} {level : Int}
    {m k₁ k₂ : Machine} (h : PipeBegins rules mark l r level m k₁ k₂) (hm : m.Orderly) {e : Entry}
    (he : e ∈ k₁.since ((execute rules l (level + 1)).after k₁) ∨
      e ∈ k₂.since ((execute rules r (level + 1)).after k₂)) :
    e ∈ m.since ((execute rules (.binary mark .pipe l r) level).after m) := by
  obtain ⟨_, m₁, m₂, m₃, _, hp⟩ := exists_piping h.left h.right
  have htold := hm.told mark .pipe l r level
  have hstart : Proceeds m ((Tree.binary mark .pipe l r).told level m) :=
    Tree.told_pair mark .pipe l r level m
  have hend : Recorded ((piped (execute rules l (level + 1)) (execute rules r (level + 1))).after
      ((Tree.binary mark .pipe l r).told level m))
      ((execute rules (.binary mark .pipe l r) level).after m) := by
    rw [after_eq_of_eq (execute_of_admits h.admits m)]
    exact Keeps.rest (fun s => .bind (.debug _ _) fun _ => .remember s) _
  have hsteady (u : Tree) := execute_steady rules u (level + 1) 2
  generalize (Tree.binary mark .pipe l r).told level m = n at hp htold hstart hend
  have hx := htold.get?_ne (Nat.le_refl _) 2
  obtain ⟨hmade, hbefore, hbehind, -⟩ := hp.spares_left htold hx (hsteady l)
  obtain ⟨hrest, hlast⟩ := hp.spares_right htold hx (hsteady l) (hsteady r)
  have hleft : Recorded m k₁ :=
    Frame.trans hstart.recorded (Frame.trans hmade.recorded hbefore.recorded)
  have hmid : Recorded ((execute rules l (level + 1)).after k₁) k₂ :=
    Frame.trans hbehind.recorded hrest.recorded
  have hran : Recorded k₁ ((execute rules l (level + 1)).after k₁) :=
    (execute_proceeds rules l _ k₁).recorded
  have hran' : Recorded k₂ ((execute rules r (level + 1)).after k₂) :=
    (execute_proceeds rules r _ k₂).recorded
  have hout := Frame.trans hlast.recorded hend
  rcases he with he | he
  · exact hleft.mem_rest ((Frame.trans hmid (Frame.trans hran' hout)).mem_first he)
  · exact (Frame.trans hleft (Frame.trans hran hmid)).mem_rest (hout.mem_first he)

/-- The stages of a tree, if it is taken for a pipeline: what is left once all pipes at its top are taken
apart. -/
def Tree.stages : Tree → List Tree
  | .binary _ .pipe l r => l.stages ++ r.stages
  | t => [t]

/-- A run of a stage from its beginning to its end. -/
def IsRun (rules : Rules) (t : Tree) (run : Machine × Machine) : Prop :=
  ∃ level, run.2 = (execute rules t level).after run.1

/-- Where no call hinders, all stages of a pipeline run. -/
theorem exists_stages {rules : Rules} {t : Tree} {level : Int} {m : Machine} (hlevel : 0 ≤ level)
    (hadmits : rules.Admits .pipe t level) (hm : m.Orderly)
    (hfree : ∀ e ∈ m.since ((execute rules t level).after m), ¬e.Hinders) :
    ∃ runs, Stages rules t level m runs ∧ List.Forall₂ (IsRun rules) t.stages runs := by
  induction t generalizing level m with
  | leaf mark c => exact ⟨_, .whole _ level m, .cons ⟨level, rfl⟩ .nil⟩
  | bare mark => exact ⟨_, .whole _ level m, .cons ⟨level, rfl⟩ .nil⟩
  | binary mark op l r ihl ihr =>
    by_cases hop : op = .pipe
    · subst hop
      obtain ⟨k₁, k₂, hbegins⟩ := exists_pipeBegins hadmits hfree
      have hinner (u : Tree) : rules.Admits .pipe u (level + 1) :=
        ⟨hadmits.registered, fun hzero => absurd hzero (by omega)⟩
      obtain ⟨ls, hls, hl⟩ := ihl (by omega) (hinner l) (hbegins.orderly_left hm) fun e he =>
        hfree e (hbegins.mem_since hm (Or.inl he))
      obtain ⟨rs, hrs, hr⟩ := ihr (by omega) (hinner r) (hbegins.orderly_right hm) fun e he =>
        hfree e (hbegins.mem_since hm (Or.inr he))
      exact ⟨ls ++ rs, .pipe hbegins hls hrs, List.rel_append hl hr⟩
    · refine ⟨_, .whole _ level m, ?_⟩
      rw [Tree.stages.eq_def]
      split
      · next heq => exact absurd (Tree.binary.inj heq).2.1 hop
      · exact .cons ⟨level, rfl⟩ .nil

/-! ### The whole run -/

/-- What the pipes of a tree convey where it is run. -/
structure Conveying (rules : Rules) (t : Tree) (level : Int) (m : Machine) : Prop where
  /-- Where no call hinders, both sides of a pipe begin, and what the left one writes is what the right
  one reads. -/
  pipe : ∀ mark l r, t = .binary mark .pipe l r → rules.Admits .pipe t level →
    (∀ e ∈ m.since ((execute rules t level).after m), ¬e.Hinders) →
    ∃ k₁ k₂, PipeBegins rules mark l r level m k₁ k₂ ∧
      Joins m (k₁, (execute rules l (level + 1)).after k₁) (k₂, (execute rules r (level + 1)).after k₂)
  /-- Where no call hinders, all stages of a pipeline run. -/
  stages : 0 ≤ level → rules.Admits .pipe t level →
    (∀ e ∈ m.since ((execute rules t level).after m), ¬e.Hinders) →
    ∃ runs, Stages rules t level m runs ∧ List.Forall₂ (IsRun rules) t.stages runs
  /-- However a pipeline is taken apart into stages, what each one writes is what the next one reads. -/
  chain : ∀ runs, Stages rules t level m runs → runs.IsChain (Joins m)

/-- **Main result**: wherever in a tree a node begins, and whichever of the descriptors are closed but
standard error, a pipe conveys what is written to it. -/
theorem execute_conveying (rules : Rules) {t : Tree} {around : Context} {level k : Int} {m n : Machine}
    (hm : m.Orderly) (h : Reaches rules t around level m k n) : Conveying rules t k n where
  pipe mark l r ht hadmits hfree := by
    subst ht
    have hn := h.orderly hm
    obtain ⟨k₁, k₂, hbegins⟩ := exists_pipeBegins hadmits hfree
    have hchain := (Stages.pipe hbegins (.whole l (k + 1) k₁) (.whole r (k + 1) k₂)).isChain hn
    exact ⟨k₁, k₂, hbegins, List.isChain_pair.1 hchain⟩
  stages hlevel hadmits hfree := exists_stages hlevel hadmits (h.orderly hm) hfree
  chain _ hstages := hstages.isChain (h.orderly hm)

/-- The tree of `echo a ; echo b | cat`, with both `echo` in front of the pipe. -/
def echoesAndCat : Tree :=
  .binary none .pipe
    (.binary none .sequential
      (.leaf none ⟨[.lit "echo".toList], [[.lit "a".toList]], none, none, none⟩)
      (.leaf none ⟨[.lit "echo".toList], [[.lit "b".toList]], none, none, none⟩))
    (.leaf none ⟨[.lit "cat".toList], [], none, none, none⟩)

/-- What both `echo` send through the write end is what `cat` takes through the read end. -/
example :
    let m := Machine.boot .standard FileTree.home [] [0, 1] [] []
    let es := m.since ((execute ⟨true, [.sequential, .pipe]⟩ echoesAndCat 0).after m)
    sent 4 es = encode "a\nb\n".toList ∧ received 3 es = encode "a\nb\n".toList := by
  decide +kernel

/-- That tree in a new session for which input and output are closed. -/
theorem execute_conveying_echoesAndCat :
    let rules : Rules := ⟨true, [.sequential, .pipe]⟩
    let m := Machine.boot .standard FileTree.home [] [0, 1] [] []
    m.Orderly ∧ Reaches rules echoesAndCat .hole 0 m 0 m ∧ Conveying rules echoesAndCat 0 m ∧
      ∃ k₁ k₂, Joins m k₁ k₂ := by
  intro rules m
  have hm : m.Orderly := Machine.boot_orderly .standard FileTree.home [] (by decide) [] []
  have hreaches : Reaches rules echoesAndCat .hole 0 m 0 m := .hole 0 m
  have hconveying := execute_conveying rules hm hreaches
  have hadmits : rules.Admits .pipe echoesAndCat 0 := ⟨by decide, by decide⟩
  have hfree : ∀ e ∈ m.since ((execute rules echoesAndCat 0).after m), ¬ e.Hinders := by
    decide +kernel
  obtain ⟨k₁, k₂, -, hjoins⟩ := hconveying.pipe _ _ _ rfl hadmits hfree
  exact ⟨hm, hreaches, hconveying, _, _, hjoins⟩

end LineShell
