import LineShell.Kernel.Boot
import LineShell.Proofs.Children

/-!
# The plumbing of trees

Every program that is entered while a tree runs finds the descriptors that its command asks for:
the command's redirects, the channels of the innermost pipes around it, and else what the shell
has. This is shown along the tree, for a leaf and for each operator, and holds whichever calls
fail.

## The model

* `Entered` says that at most one program was entered, by a certain process and with certain
  arguments.
* `Channelled` is what is known once a channel was made: its ends are on two descriptors that were
  free, nothing else about the descriptors has changed, and it is a channel that nothing led to
  before.
* `NoneAstray` says of a program that no end of a channel is open in it but where its command
  stands in need of it.
* `Machine.Sound` says of a machine that its descriptors refer to open files and to channels that
  exist.

The wiring that a program should find is defined beside this module, relative to the descriptors
of the process that runs the tree; the frames of what is entered and given back are as well.

## What is proved

* A process whose redirects are made is wired for its command alone (`Redirected.wired`), so a
  leaf runs as it should (`runLeaf_runs`).
* In a child that runs a side of a pipe an end of the channel is a standard stream and the channel
  is open nowhere else (`Channelled.pipeSide`), so what the side enters is wired as it should be,
  seen from the pipe (`Channelled.wires`).
* With one lemma for each operator, every tree enters programs of its leaves only, in their order,
  each wired for its leaf, and gives its descriptors back (`execute_runs`). The induction is on
  the tree.
* In a sound machine no end of a channel is astray in a program that is wired
  (`Wired.noneAstray`). A machine before anything happened is sound and has its standard streams
  open, unless they were closed (`Machine.boot_sound`, `Machine.boot_standard`).

The first machine is asked for open standard streams. What redirects do where one is closed, and
where it goes wrong, is told elsewhere.
-/

namespace LineShell

open Act

/-! ### A program for a command -/

/-- At most one program was entered, by a certain process and with certain arguments. -/
structure Entered (image : Proc × List Text) (m m' : Machine) : Prop where
  /-- The world has grown. -/
  grows : m.world.Grows m'.world
  /-- The program, if there is one. -/
  images : m'.world.images = m.world.images ∨ m'.world.images = m.world.images ++ [image]

namespace Entered

variable {α β : Type} {image : Proc × List Text} {m m₁ m' : Machine} {a : Act α} {f : α → Act β}

theorem of_still (h : Still m m') : Entered image m m' := ⟨h.grows, Or.inl h.images⟩

theorem trans_still (h : Entered image m m₁) (h' : Still m₁ m') : Entered image m m' := by
  refine ⟨h.grows.trans h'.grows, ?_⟩
  rw [h'.images]
  exact h.images

theorem still_bind (ha : Keeps Still a) (hf : ∀ x, Keeps (Entered image) (f x)) :
    Keeps (Entered image) (a >>= f) := by
  intro m
  have h := ha m
  rcases after_bind_cases a f m with ⟨x, -, hb⟩ | ⟨e, -, hb⟩
  · obtain ⟨hg, hi⟩ := hf x (a.after m)
    rw [hb]
    refine ⟨h.grows.trans hg, ?_⟩
    rwa [h.images] at hi
  · rw [hb]
    exact .of_still h

theorem bind_still (ha : Entered image m (a.after m)) (hf : ∀ x, Keeps Still (f x)) :
    Entered image m ((a >>= f).after m) := by
  rcases after_bind_cases a f m with ⟨x, -, hb⟩ | ⟨e, -, hb⟩
  · rw [hb]
    exact ha.trans_still (hf x _)
  · rwa [hb]

end Entered

/-- The program that a process becomes has the process's own descriptors and variables. -/
theorem exec_entered (file : Text) (argv : List Text) (m : Machine) :
    Entered (m.proc, argv) m ((exec file argv).after m) := by
  suffices h : ∀ p : Proc, Keeps (Entered (p, argv)) (do
      refuse (imageFault? file argv p.table)
      enter p argv (← call .exec (execEvent file argv) (findProgram p.table file))) from h m.proc m
  intro p
  refine .still_bind (.refuse _) fun _ => .still_bind (.call fun m x m' h => ?_) fun found => ?_
  · obtain rfl := findProgram_eq_ok h
    exact .refl m'.world
  rcases found with e | ⟨place, program⟩
  · intro m
    exact .of_still (.refl m.world)
  · intro m
    refine .bind_still ⟨m.world.grows_note _, Or.inr ?_⟩ fun _ => ?_
    · show List.filterMap _ (m.world.journal ++ [_]) = _
      rw [List.filterMap_append]
      rfl
    · exact .bind (fun m => program.run_keeps _ m) fun raw => .bind (.called _) fun _ => .pure _

theorem runProgram_entered (argv : List Text) (m : Machine) :
    ∃ stats, Entered ({ m.proc with stats := stats }, argv) m ((runProgram argv).after m) := by
  let stats : Stats := { m.proc.stats with exec := m.proc.stats.exec + 1 }
  let p : Proc := { m.proc with stats := stats }
  suffices h : Entered (p, argv) ⟨m.world, p⟩ ((runProgram argv).after m) from
    ⟨stats, ⟨h.grows, h.images⟩⟩
  match argv with
  | [] => exact .of_still (Keeps.bind (.report _) (fun _ => .pure _) ⟨m.world, p⟩)
  | [] :: _ => exact .of_still (Keeps.bind (.report _) (fun _ => .pure _) ⟨m.world, p⟩)
  | (c :: file) :: args =>
    show Entered _ _ ((exec _ _ >>= _).after ⟨m.world, p⟩)
    refine .bind_still (exec_entered _ _ ⟨m.world, p⟩) fun r => ?_
    split
    · exact .pure _
    · exact .bind (.report _) fun _ => .pure _
    · exact .bind (.report _) fun _ => .pure _
    · exact .bind (.report _) fun _ => .pure _
    · exact .bind (.report _) fun _ => .pure _

/-! ### Leaves -/

/-- Redirects open and close no standard stream. -/
theorem Redirected.isSome {c : Command} {table : Table} {cwd : Place} {w : World}
    {t u : Descriptors} (h : Redirected c table cwd w t u) (ht : t.Standard) (fd : Nat) :
    (u.get? fd).isSome = (t.get? fd).isSome := by
  obtain ⟨hinput, houtput, herrors, hothers⟩ := h
  match fd with
  | 0 =>
    split at hinput
    · obtain ⟨file, hfile, -⟩ := hinput
      obtain ⟨old, hold⟩ := ht 0 (by omega)
      rw [hfile, hold]
      rfl
    · rw [hinput]
  | 1 =>
    split at houtput
    · obtain ⟨file, hfile, -⟩ := houtput
      obtain ⟨old, hold⟩ := ht 1 (by omega)
      rw [hfile, hold]
      rfl
    · rw [houtput]
  | 2 =>
    split at herrors
    · obtain ⟨file, mode, hfile, -⟩ := herrors
      obtain ⟨old, hold⟩ := ht 2 (by omega)
      rw [hfile, hold]
      rfl
    · rw [herrors]
  | fd + 3 => rw [hothers _ (by omega)]

/-- A process whose redirects are made is wired for its command alone. -/
theorem Redirected.wired {c : Command} {p : Proc} {w : World} {t : Descriptors}
    (h : Redirected c p.table p.cwd w t p.fds) (ht : t.Standard) :
    Wired t w (fun _ => none) (c, ⟨none, none⟩) (p, c.argv p.table) where
  argv := rfl
  isSome := h.isSome ht
  others := h.others
  input := h.input
  output := h.output
  errors := h.errors

theorem runChild_enters {t : Descriptors} (ht : t.Standard) (c : Command) :
    Enters t t [(c, ⟨none, none⟩)] (runChild c) := by
  intro m hm
  unfold runChild
  rw [after_bind]
  have hkeep := Keeps.attempt (Keeps.applyRedirects c) m
  cases hr : attempt (applyRedirects c) m with
  | error e m₁ =>
    rw [after_of_error hr] at hkeep
    exact .of_still hkeep.still
  | ok r m₁ =>
    rw [after_of_ok hr] at hkeep
    refine .still_trans hkeep.still ?_
    rcases attempt_eq_ok hr with ⟨_, rfl, hdone⟩ | ⟨e, rfl, -⟩
    · have hredirected := applyRedirects_eq_ok (hm ▸ ht) hdone
      rw [hm, ← hkeep.table, ← hkeep.cwd] at hredirected
      obtain ⟨stats, hg, hi⟩ := runProgram_entered (c.argv m₁.proc.table) m₁
      show Wires t m₁.world _ ((runProgram (c.argv m₁.proc.table)).after m₁).world
      rcases hi with hi | hi
      · exact .of_still ⟨hg, hi⟩
      · have hwired : Wired t m₁.world (fun _ => none) (c, ⟨none, none⟩)
            ({ m₁.proc with stats := stats }, c.argv m₁.proc.table) :=
          Redirected.wired hredirected ht
        exact .single hg hi (hwired.of_grows hg)
    · dsimp only
      split
      · next he => exact absurd he (by simp)
      · exact .of_still (Keeps.bind (R := Still) (.report _) (fun _ => .pure _) m₁)
      · exact .of_still (Keeps.throw (R := Still) _ m₁)

theorem runExternal_runs (c : Command) : Runs [(c, ⟨none, none⟩)] (runExternal c) := by
  have hspawn : Runs [(c, ⟨none, none⟩)] (attempt (spawn (runChild c))) :=
    ⟨fun t ht => .attempt (.spawn (runChild_enters ht c)), .of_bound (.attempt (.spawn _))⟩
  refine .bind_calm hspawn fun r => ?_
  split
  · exact .await _
  · exact .bind (.error _ _ _) fun _ => .bind (.report _) fun _ => .pure _
  · exact .throw _

theorem runLeaf_runs (rules : Rules) (mark : Option Nat) (c : Command) (level : Int) :
    Runs [(c, ⟨none, none⟩)] (runLeaf rules mark c level) := by
  refine .calm_bind .proc fun p => .calm_bind (.note rfl) fun _ => .calm_bind (.debug _ _) fun _ => ?_
  split
  · exact .of_calm (.bind (.modifyProc fun _ => rfl) fun _ => .bind (.debug _ _) fun _ => .pure _)
  · exact .of_calm (.changeDirectory c)
  · exact .of_calm (.bind (.info _ _) fun _ => .pure _)
  · exact runExternal_runs c

/-! ### Serial operators -/

theorem Sided.refl {op : Operator} (h : op ≠ .pipe) (t : Descriptors) (w : World)
    (channel : Way → Option Nat) (side : Bool) : Sided t w channel op side t where
  isSome _ := rfl
  others _ _ := rfl
  input := by
    rw [rootPipe, if_neg fun hp => h hp.1]
    rfl
  output := by
    rw [rootPipe, if_neg fun hp => h hp.1]
    rfl

namespace Act.Runs

variable {α β : Type} {left right : List Leaf}

/-- One side after the other, in the process of the pair. -/
theorem serial {op : Operator} (hop : op ≠ .pipe) {a : Act α} {f : α → Act β} (ha : Runs left a)
    (hf : ∀ x, Runs right (f x)) : Runs (joinLeaves op left right) (a >>= f) := by
  refine ⟨fun t ht m hm => ?_, .bind ha.restores fun x => (hf x).restores⟩
  refine .pair_bind none (.refl _) (ha.enters t ht m hm) (fun x m' h => ?_) (by simp)
    (fun _ _ => .refl hop _ _ _ _) (fun _ _ => .refl hop _ _ _ _)
  exact (hf x).enters t ht m' ((ha.restores m x m' h).trans hm)

variable {a b : Act Status} (ha : Runs left a) (hb : Runs right b)
include ha hb

theorem combine_serial {op : Operator} (hop : op.forks = false) :
    Runs (joinLeaves op left right) (LineShell.combine op a b) := by
  rw [combine_of_serial hop]
  refine .serial (by rintro rfl; exact nomatch hop) ha fun status => ?_
  split
  · exact .of_calm (.pure _)
  · split
    · exact hb
    · next hskip =>
      obtain ⟨_, _, hpass⟩ := Operator.pass_of_skip (Bool.eq_false_iff.2 hskip)
      rw [hpass]
      exact .of_calm (.bind (.debug _ _) fun _ => .pure _)

end Act.Runs

/-! ### Concurrent operators -/

theorem sideWork_enters {s u : Descriptors} {leaves : List Leaf} {a : Act Status}
    (h : Enters s u leaves a) : Enters s u leaves (sideWork a) :=
  .bind_still h fun _ => .pure _

namespace Act.Keeps

theorem spawnAll (works : List (Act ChildEnd)) : Keeps Bound (LineShell.spawnAll works) := by
  induction works with
  | nil => exact .pure _
  | cons work works ih =>
    refine .bind (.attempt (.spawn work)) fun r => ?_
    split
    · exact .pure _
    · exact .bind ih fun _ => .pure _

end Act.Keeps

/-- Two children, one for each side of a pair. -/
theorem spawnAll_wires {t u v : Descriptors} {w : World} {left right : List Leaf} {op : Operator}
    (own : Option Nat) {m : Machine} {a b : Act ChildEnd} (h₁ : w.Still m.world)
    (ha : Enters m.proc.fds u left a) (hb : Enters m.proc.fds v right b)
    (hown : ∀ n, own = some n → w.channels.length ≤ n ∧ n < m.world.channels.length)
    (hu : ∀ channel : Way → Option Nat, channel [] = own → Sided t m.world channel op false u)
    (hv : ∀ channel : Way → Option Nat, channel [] = own → Sided t m.world channel op true v) :
    Wires t w (joinLeaves op left right) ((spawnAll [a, b]).after m).world := by
  have hone : Enters m.proc.fds v right (spawnAll [b]) := by
    refine .bind_still (.attempt (.spawn hb)) fun r => ?_
    split
    · exact .pure _
    · exact .bind (.pure _) fun _ => .pure _
  refine .pair_bind own h₁ (Enters.attempt (.spawn ha) m rfl) (fun r m' hr => ?_) hown hu hv
  have hfds := Restores.of_bound (.attempt (.spawn a)) m r m' hr
  split
  · exact .of_still (.refl _)
  · exact Enters.bind_still hone (fun _ => .pure _) m' hfds

namespace Act.Runs

variable {left right : List Leaf} {a b : Act Status} (ha : Runs left a) (hb : Runs right b)
include ha hb

theorem inParallel : Runs (joinLeaves .parallel left right) (LineShell.inParallel a b) := by
  have hspawn : Runs (joinLeaves .parallel left right)
      (LineShell.spawnAll [sideWork a, sideWork b]) := by
    refine ⟨fun t ht m hm => ?_, .of_bound (.spawnAll _)⟩
    subst hm
    have hop : Operator.parallel ≠ .pipe := by simp
    exact spawnAll_wires none (.refl _) (sideWork_enters (ha.enters _ ht))
      (sideWork_enters (hb.enters _ ht)) (by simp) (fun _ _ => .refl hop _ _ _ _)
      (fun _ _ => .refl hop _ _ _ _)
  refine .bind_calm hspawn fun (pids, failure) => ?_
  refine .bind (.failure (fun e => .reportFork _ _ e) failure) fun _ => ?_
  refine .bind (.awaitAll pids) fun statuses => .bind (.debug _ _) fun _ => ?_
  split
  · exact .pure _
  · exact .pure _

end Act.Runs

/-! ### Pipes -/

/-- A channel was made on two free descriptors, which refer to its ends. -/
structure Channelled (m m' : Machine) (r w f g : Nat) : Prop where
  /-- The descriptors were free. -/
  pair : m.proc.fds.Pair r w
  /-- Nothing else about the descriptors has changed. -/
  fds : m'.proc.fds = (m.proc.fds.set r f).set w g
  /-- The first one refers to the read end. -/
  reads : ∃ file, m'.world.opened[f]? = some file ∧
    file.target = .readEnd m.world.channels.length
  /-- The second one refers to the write end. -/
  writes : ∃ file, m'.world.opened[g]? = some file ∧
    file.target = .writeEnd m.world.channels.length
  /-- The channel is new. -/
  new : m.world.channels.length < m'.world.channels.length

theorem createChannel_channelled {m m' : Machine} {r w : Nat} (h : createChannel m = .ok (r, w) m') :
    Channelled m m' r w m.world.opened.length (m.world.opened.length + 1) := by
  obtain ⟨ends, m₁, hp, hrest⟩ := bind_eq_ok.1 (createChannel_eq ▸ h)
  have hcalm : Calm m₁ m' := (Keeps.tellChannel ends).of_ok hrest
  obtain rfl := tellChannel_eq_ok hrest
  obtain ⟨hr, hw, hfds, hopened, hchannels, -⟩ := pipe_eq_ok hp
  have hlead {i : Nat} {file : OpenFile} (hi : m₁.world.opened[i]? = some file) :
      ∃ file', m'.world.opened[i]? = some file' ∧ file'.target = file.target := by
    obtain ⟨file', hfile', hstays⟩ := hcalm.still.grows.opened i file hi
    exact ⟨file', hfile', hstays.1⟩
  refine ⟨?_, ?_, ?_, ?_, ?_⟩
  · rw [hw, hr]
    exact Descriptors.pair_free _ _
  · rw [hcalm.fds, hfds]
  · refine @hlead _ ⟨.readEnd m.world.channels.length, false, false, 0⟩ ?_
    rw [hopened, List.getElem?_append_right (Nat.le_refl _)]
    simp
  · refine @hlead _ ⟨.writeEnd m.world.channels.length, true, false, 0⟩ ?_
    rw [hopened, List.getElem?_append_right (Nat.le_succ _)]
    simp
  · refine Nat.lt_of_lt_of_le ?_ hcalm.still.grows.channels
    rw [hchannels]
    simp

theorem createChannel_eq_ok {m m' : Machine} {r w : Nat} (h : createChannel m = .ok (r, w) m') :
    ∃ f g, Channelled m m' r w f g := ⟨_, _, createChannel_channelled h⟩

/-- What is open stays where it is when a channel is made. -/
theorem Channelled.get?_eq {m m₁ : Machine} {r w f g fd file : Nat} (hc : Channelled m m₁ r w f g)
    (hfile : m.proc.fds.get? fd = some file) : m₁.proc.fds.get? fd = m.proc.fds.get? fd := by
  have hr : fd ≠ r := by
    rintro rfl
    exact nomatch hfile.symm.trans hc.pair.left
  have hw : fd ≠ w := by
    rintro rfl
    exact nomatch hfile.symm.trans hc.pair.right
  rw [hc.fds, Descriptors.get?_set_of_ne _ _ hw, Descriptors.get?_set_of_ne _ _ hr]

/-- Where no channel can be made the descriptors stay. -/
theorem createChannel_eq_error {m m' : Machine} {e : Failure}
    (h : createChannel m = .error e m') : m'.proc.fds = m.proc.fds := by
  have hp := Answers.bind_eq_error (fun _ => .bind (.modifyProc _) fun _ =>
    .bind (.debug _ _) fun _ => .pure _) h
  obtain ⟨errno, rfl⟩ := answered_eq_error hp
  rfl

/-- Standard streams that one of them is bound to an end of a channel. -/
theorem Descriptors.Standard.set {t : Descriptors} (h : t.Standard) (fd file : Nat) :
    (t.set fd file).Standard := by
  intro x hx
  by_cases hfd : x = fd
  · subst hfd
    exact ⟨file, Descriptors.get?_set_self ..⟩
  · rw [Descriptors.get?_set_of_ne _ _ hfd]
    exact h x hx

theorem Descriptors.isSome_set {t : Descriptors} {fd : Nat} (h : t.get? fd ≠ none) (file x : Nat) :
    ((t.set fd file).get? x).isSome = (t.get? x).isSome := by
  by_cases hfd : x = fd
  · subst hfd
    rw [Descriptors.get?_set_self, Option.isSome_some, Option.isSome_iff_ne_none.2 h]
  · rw [Descriptors.get?_set_of_ne _ _ hfd]

theorem Descriptors.Standard.ne_none {t : Descriptors} (h : t.Standard) {fd : Nat} (hfd : fd ≤ 2) :
    t.get? fd ≠ none := by
  obtain ⟨file, hfile⟩ := h fd hfd
  simp [hfile]

section Channelled

variable {m m₁ : Machine} {r w f g : Nat} (hc : Channelled m m₁ r w f g)
  (ht : m.proc.fds.Standard)
include hc ht

/-- The left side of a pipe has the write end. -/
theorem Channelled.left {channel : Way → Option Nat}
    (h : channel [] = some m.world.channels.length) :
    Sided m.proc.fds m₁.world channel .pipe false (m.proc.fds.set 1 g) where
  isSome := Descriptors.isSome_set (ht.ne_none (by omega)) g
  others fd hfd := Descriptors.get?_set_of_ne _ _ (by omega)
  input := Descriptors.get?_set_of_ne _ _ (by omega)
  output := by
    obtain ⟨file, hfile, htarget⟩ := hc.writes
    exact ⟨_, h, g, file, Descriptors.get?_set_self .., hfile, htarget⟩

/-- The right side of a pipe has the read end. -/
theorem Channelled.right {channel : Way → Option Nat}
    (h : channel [] = some m.world.channels.length) :
    Sided m.proc.fds m₁.world channel .pipe true (m.proc.fds.set 0 f) where
  isSome := Descriptors.isSome_set (ht.ne_none (by omega)) f
  others fd hfd := Descriptors.get?_set_of_ne _ _ (by omega)
  input := by
    obtain ⟨file, hfile, htarget⟩ := hc.reads
    exact ⟨_, h, f, file, Descriptors.get?_set_self .., hfile, htarget⟩
  output := Descriptors.get?_set_of_ne _ _ (by omega)

/-- In a child that runs a side of a pipe, an end of the channel is a standard stream, and the
channel is open nowhere else. -/
theorem Channelled.pipeSide {leaves : List Leaf} {a : Act Status} (ha : Runs leaves a)
    {fd standard file : Nat} (hfd : fd = r ∧ file = f ∨ fd = w ∧ file = g) :
    Enters m₁.proc.fds (m.proc.fds.set standard file) leaves
      (pipeSide a fd standard r w) := by
  intro m₂ hm₂
  unfold LineShell.pipeSide
  rw [after_bind]
  have hkeep := Keeps.bindStream fd standard [r, w] m₂
  cases hr : bindStream fd standard [r, w] m₂ with
  | error e m₃ =>
    rw [after_of_error hr] at hkeep
    exact .of_still hkeep.still
  | ok x m₃ =>
    rw [after_of_ok hr] at hkeep
    have hfds := bindStream_pair hc.pair (hm₂.trans hc.fds) hfd hr
    exact .still_trans hkeep.still (sideWork_enters (ha.enters _ (ht.set standard file)) m₃ hfds)

end Channelled

/-- Once a channel is made both sides of a pipe are, and then nothing more is entered. -/
theorem Channelled.wires {left right : List Leaf} {a b : Act Status} (ha : Runs left a)
    (hb : Runs right b) {m m₁ : Machine} {r w f g : Nat} (hc : Channelled m m₁ r w f g)
    (ht : m.proc.fds.Standard) (hm : Still m m₁) :
    Wires m.proc.fds m.world (joinLeaves .pipe left right)
      ((spawnAll [LineShell.pipeSide a w 1 r w, LineShell.pipeSide b r 0 r w]).after m₁).world := by
  refine spawnAll_wires (some m.world.channels.length) hm
    (hc.pipeSide ht ha (Or.inr ⟨rfl, rfl⟩)) (hc.pipeSide ht hb (Or.inl ⟨rfl, rfl⟩)) ?_
    (fun channel h => hc.left ht h) (fun channel h => hc.right ht h)
  rintro n hn
  obtain rfl := Option.some.inj hn
  exact ⟨Nat.le_refl _, hc.new⟩

namespace Act.Runs

variable {left right : List Leaf} {a b : Act Status} (ha : Runs left a) (hb : Runs right b)
include ha hb

theorem piped : Runs (joinLeaves .pipe left right) (LineShell.piped a b) := by
  refine ⟨fun t ht m hm => ?_, fun m x m' h => ?_⟩
  · subst hm
    unfold LineShell.piped
    rw [after_bind]
    have hkeep := Keeps.attempt Keeps.createChannel m
    cases hr : attempt createChannel m with
    | error e m₁ =>
      rw [after_of_error hr] at hkeep
      exact .of_still hkeep.still
    | ok r m₁ =>
      rw [after_of_ok hr] at hkeep
      rcases attempt_eq_ok hr with ⟨⟨r, w⟩, rfl, hdone⟩ | ⟨e, rfl, -⟩
      · obtain ⟨f, g, hc⟩ := createChannel_eq_ok hdone
        refine .bind_still (hc.wires ha hb ht hkeep.still) fun (pids, failure) => ?_
        refine .bind (.attempt (.failure (fun e => (Keeps.reportFork _ _ e).still) failure)) fun _ => ?_
        refine .bind ((Keeps.closeAll _).mono fun _ _ h => h.still) fun _ => ?_
        exact .bind (.ofExcept _) fun _ => (Keeps.awaitStages pids).still
      · refine .still_trans hkeep.still ?_
        dsimp only
        split
        · exact .of_still (Keeps.bind (R := Still) (.error _ _ _)
            (fun _ => .bind (.report _) fun _ => .pure _) m₁)
        · exact .of_still (Keeps.throw (R := Still) _ m₁)
        · next he => exact absurd he (by simp)
  · obtain ⟨r, m₁, hr, h⟩ := bind_eq_ok.1 h
    rcases attempt_eq_ok hr with ⟨⟨r, w⟩, rfl, hdone⟩ | ⟨e, rfl, hfail⟩
    · obtain ⟨f, g, hc⟩ := createChannel_eq_ok hdone
      obtain ⟨⟨pids, failure⟩, m₂, hspawn, h⟩ := bind_eq_ok.1 h
      obtain ⟨told, m₃, htold, h⟩ := bind_eq_ok.1 h
      obtain ⟨_, m₄, hclose, h⟩ := bind_eq_ok.1 h
      have hfds₂ := Restores.of_bound (.spawnAll _) _ _ _ hspawn
      have hfds₃ := Restores.of_bound
        (.attempt (.failure (fun e => (Keeps.reportFork _ _ e).bound) failure)) _ _ _ htold
      have hfds₄ := closeAll_pair hc.pair (hfds₃.trans (hfds₂.trans hc.fds)) hclose
      have hrest := Restores.of_bound
        (.bind (.ofExcept told) fun _ => (Keeps.awaitStages pids).bound) _ _ _ h
      exact hrest.trans hfds₄
    · have hfds := createChannel_eq_error hfail
      cases e with
      | system e path =>
        have hrest := Restores.of_bound (.bind (.error _ _ _) fun _ =>
          .bind (.report _) fun _ => .pure _) _ _ _ h
        exact hrest.trans hfds
      | _ => exact absurd h not_throw_eq_ok

/-- The operators, all alike. -/
theorem combine (op : Operator) : Runs (joinLeaves op left right) (LineShell.combine op a b) := by
  cases op with
  | sequential => exact combine_serial ha hb rfl
  | conditionalAnd => exact combine_serial ha hb rfl
  | conditionalOr => exact combine_serial ha hb rfl
  | pipe => exact piped ha hb
  | parallel => exact inParallel ha hb

theorem runPair (rules : Rules) (op : Operator) (shown : Text) (level : Int) :
    Runs (joinLeaves op left right) (rules.runPair op shown level a b) := by
  refine .calm_bind (.refuse _) fun _ => .calm_bind (.debug _ _) fun _ => ?_
  exact .bind_calm (combine ha hb op) fun _ => .bind (.debug _ _) fun _ => .remember _

end Act.Runs

/-! ### Trees -/

theorem execute_runs (rules : Rules) (t : Tree) (level : Int) :
    Runs t.standings (execute rules t level) := by
  induction t generalizing level with
  | leaf mark c => exact .bind_calm (runLeaf_runs rules mark c level) fun _ => .remember _
  | bare mark => exact .of_calm (.throw _)
  | binary mark op l r ihl ihr =>
    have hpair := Runs.runPair (ihl (level + 1)) (ihr (level + 1)) rules op
      (Tree.binary mark op l r).shown level
    unfold execute
    split
    · exact .calm_bind (.refuse _) fun _ => hpair
    · exact hpair

/-! ### No end of a channel astray -/

/-- Every descriptor of the running process refers to an open file, and a channel that one leads
to exists. -/
def Machine.Sound (m : Machine) : Prop :=
  ∀ fd file, m.proc.fds.get? fd = some file → ∃ f, m.world.opened[file]? = some f ∧
    ∀ n, f.target = .readEnd n ∨ f.target = .writeEnd n → n < m.world.channels.length

/-- A descriptor is closed with others, or refers to what it did. -/
theorem Descriptors.get?_foldl_erase (closed : List Nat) (t : Descriptors) (fd : Nat) :
    (closed.foldl Descriptors.erase t).get? fd = none ∨
      (closed.foldl Descriptors.erase t).get? fd = t.get? fd := by
  induction closed generalizing t with
  | nil => exact Or.inr rfl
  | cons x closed ih =>
    rcases ih (t.erase x) with h | h
    · exact Or.inl h
    · by_cases hx : fd = x
      · subst hx
        rw [Descriptors.get?_erase_self] at h
        exact Or.inl h
      · rw [Descriptors.get?_erase_of_ne _ hx] at h
        exact Or.inr h

/-- A descriptor that is not closed with others refers to what it did. -/
theorem Descriptors.get?_foldl_erase_of_notMem {closed : List Nat} {fd : Nat} (h : fd ∉ closed)
    (t : Descriptors) : (closed.foldl Descriptors.erase t).get? fd = t.get? fd := by
  induction closed generalizing t with
  | nil => rfl
  | cons x closed ih =>
    obtain ⟨hx, hclosed⟩ := not_or.1 (mt List.mem_cons.2 h)
    rw [List.foldl_cons, ih hclosed, Descriptors.get?_erase_of_ne _ hx]

/-- A machine before anything happened is sound, whatever was closed. -/
theorem Machine.boot_sound (files : FileTree) (cwd : Place) (input : Bytes) (closed : List Nat)
    (faults : List Fault) (table : Table) :
    (Machine.boot files cwd input closed faults table).Sound := by
  have hstandard : ∀ fd file, Descriptors.standard.get? fd = some file → file < 3 := by
    intro fd file h
    rw [← Descriptors.mem_entries_iff] at h
    simp only [Descriptors.standard, List.mem_cons, Prod.mk.injEq, List.not_mem_nil,
      or_false] at h
    omega
  intro fd file hfd
  have hfile : (closed.foldl Descriptors.erase .standard).get? fd = some file := hfd
  have hlt : file < 3 := by
    rcases Descriptors.get?_foldl_erase closed .standard fd with h | h
    · rw [h] at hfile
      simp at hfile
    · rw [h] at hfile
      exact hstandard fd file hfile
  obtain rfl | rfl | rfl : file = 0 ∨ file = 1 ∨ file = 2 := by omega
  · exact ⟨_, rfl, by simp⟩
  · exact ⟨_, rfl, by simp⟩
  · exact ⟨_, rfl, by simp⟩

/-- A program has an end of a channel that was made after `w` only where its command stands in
need of it: the read end of its pipe on standard input, the write end on standard output. -/
def NoneAstray (w w' : World) (channel : Way → Option Nat) (leaf : Leaf)
    (image : Proc × List Text) : Prop :=
  ∀ fd file f n, image.1.fds.get? fd = some file → w'.opened[file]? = some f →
    w.channels.length ≤ n →
    (f.target = .readEnd n → fd = 0 ∧ leaf.1.input = none ∧ leaf.2.reads.bind channel = some n) ∧
    (f.target = .writeEnd n → fd = 1 ∧ leaf.1.output = none ∧ leaf.2.writes.bind channel = some n)

/-- A stream that is joined leads to the end of its pipe's channel, or where it led. -/
theorem Joined.target {t u : Descriptors} {w : World} {channel : Way → Option Nat} {fd file : Nat}
    {side : Nat → Target} {way : Option Way} {f : OpenFile} (h : Joined t w channel u fd side way)
    (hfd : u.get? fd = some file) (hf : w.opened[file]? = some f) :
    t.get? fd = some file ∨ ∃ n, way.bind channel = some n ∧ f.target = side n := by
  cases way with
  | none => exact Or.inl (Eq.trans (Eq.symm h) hfd)
  | some way =>
    obtain ⟨n, hn, file', f', hfile', hf', htarget⟩ := h
    obtain rfl := Option.some.inj (hfd.symm.trans hfile')
    obtain rfl := Option.some.inj (hf.symm.trans hf')
    exact Or.inr ⟨n, hn, htarget⟩

theorem Wired.noneAstray {m : Machine} {w' : World} {channel : Way → Option Nat} {leaf : Leaf}
    {image : Proc × List Text} (h : Wired m.proc.fds w' channel leaf image) (hm : m.Sound)
    (hg : m.world.Grows w') : NoneAstray m.world w' channel leaf image := by
  intro fd file f n hfd hf hn
  -- what the shell has leads to no new channel, and neither does a redirect
  have hold (h : m.proc.fds.get? fd = some file) :
      ¬ (f.target = .readEnd n ∨ f.target = .writeEnd n) := by
    intro hend
    obtain ⟨f₀, hf₀, hlt⟩ := hm fd file h
    obtain ⟨f', hf', htarget, -⟩ := hg.opened file f₀ hf₀
    obtain rfl := Option.some.inj (hf.symm.trans hf')
    rw [htarget] at hend
    have := hlt n hend
    omega
  have hopens {cwd : Place} {path : Text} {mode : OpenMode} {file' : Nat}
      (hfile : image.1.fds.get? fd = some file') (h : w'.Opens cwd path mode file') :
      ¬ (f.target = .readEnd n ∨ f.target = .writeEnd n) := by
    obtain rfl := Option.some.inj (hfd.symm.trans hfile)
    obtain ⟨f', hf', ⟨place, -, htarget⟩, -⟩ := h
    obtain rfl := Option.some.inj (hf.symm.trans hf')
    rcases htarget with htarget | ⟨htarget, -⟩ <;> simp [htarget]
  match fd with
  | 0 =>
    have hinput := h.input
    split at hinput
    · obtain ⟨file', hfile', ho⟩ := hinput
      have := hopens hfile' ho
      tauto
    · next hnone =>
      rcases hinput.target hfd hf with h₀ | ⟨n', hn', htarget⟩
      · have := hold h₀
        tauto
      · rw [htarget]
        refine ⟨fun he => ?_, fun he => by simp at he⟩
        obtain rfl := Target.readEnd.inj he
        exact ⟨rfl, hnone, hn'⟩
  | 1 =>
    have houtput := h.output
    split at houtput
    · obtain ⟨file', hfile', ho⟩ := houtput
      have := hopens hfile' ho
      tauto
    · next hnone =>
      rcases houtput.target hfd hf with h₁ | ⟨n', hn', htarget⟩
      · have := hold h₁
        tauto
      · rw [htarget]
        refine ⟨fun he => by simp at he, fun he => ?_⟩
        obtain rfl := Target.writeEnd.inj he
        exact ⟨rfl, hnone, hn'⟩
  | 2 =>
    have herrors := h.errors
    split at herrors
    · obtain ⟨file', mode, hfile', -, ho⟩ := herrors
      have := hopens hfile' ho
      tauto
    · have := hold (herrors.symm.trans hfd)
      tauto
  | fd + 3 =>
    have := hold ((h.others _ (by omega)).symm.trans hfd)
    tauto

/-- The standard streams of a machine before anything happened are open. -/
theorem Machine.boot_standard (files : FileTree) (cwd : Place) (input : Bytes)
    (faults : List Fault) (table : Table) :
    (Machine.boot files cwd input [] faults table).proc.fds.Standard := by
  intro fd hfd
  match fd, hfd with
  | 0, _ => exact ⟨0, rfl⟩
  | 1, _ => exact ⟨1, rfl⟩
  | 2, _ => exact ⟨2, rfl⟩

/-! ### The whole run -/

/-- All programs that were entered between two machines, of some leaves in their order, have the
descriptors that their leaves call for, relative to those of the first machine, and no end of a
channel is open anywhere else. `channel` tells which channel each pipe made. -/
def Plumbed (m m' : Machine) (leaves : List Leaf) : Prop :=
  ∃ (channel : Way → Option Nat) (images : List (Proc × List Text)),
    Numbers channel m.world m'.world ∧ m'.world.images = m.world.images ++ images ∧
      List.SublistForall₂ (fun image leaf => Wired m.proc.fds m'.world channel leaf image ∧
        (m.Sound → NoneAstray m.world m'.world channel leaf image)) images leaves

/-- **Main result**: whatever fails in the run of a tree, every program that is entered has the
descriptors that its leaf calls for. -/
theorem execute_plumbed (rules : Rules) (t : Tree) (level : Int) (m : Machine)
    (hm : m.proc.fds.Standard) :
    Plumbed m ((execute rules t level).after m) t.standings := by
  obtain ⟨hg, channel, images, hn, hi, hw⟩ := (execute_runs rules t level).enters _ hm m rfl
  refine ⟨channel, images, hn, hi, sublistForall₂_imp (fun image leaf h => ?_) hw⟩
  exact ⟨h, fun hs => h.noneAstray hs hg⟩

/-- The tree of `cat < in | count 2> log & echo`, a pipe beside a lone command. -/
def pipeBeside : Tree :=
  .binary none .parallel
    (.binary none .pipe
      (.leaf none ⟨[.lit "cat".toList], [], some [.lit "in".toList], none, none⟩)
      (.leaf none ⟨[.lit "count".toList], [], none, none, some ⟨[.lit "log".toList], false⟩⟩))
    (.leaf none ⟨[.lit "echo".toList], [], none, none, none⟩)

/-- Two of the three commands are joined by the one pipe. -/
example : pipeBeside.standings.map (·.2) =
    [⟨none, some [false]⟩, ⟨some [false], none⟩, ⟨none, none⟩] := rfl

/-- The programs of that tree in a new session. -/
theorem execute_plumbed_pipeBeside :
    (Machine.boot .standard FileTree.home [] [] [] []).proc.fds.Standard ∧
      Plumbed (Machine.boot .standard FileTree.home [] [] [] [])
        ((execute ⟨true, [.parallel, .pipe]⟩ pipeBeside 0).after
          (Machine.boot .standard FileTree.home [] [] [] []))
        pipeBeside.standings :=
  have h := Machine.boot_standard .standard FileTree.home [] [] []
  ⟨h, execute_plumbed ⟨true, [.parallel, .pipe]⟩ pipeBeside 0 _ h⟩

end LineShell
