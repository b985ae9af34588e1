import LineShell.Proofs.Plumbing
import LineShell.Proofs.Unhindered

/-!
# Ends of a channel

Each side of a pipe has one end of the channel bound to a standard stream, and the process that
runs the pipe closes both. Where standard streams are closed the ends of the channel may come to
be 0, 1 or 2 themselves: then the end may stand where it has to go already, or the other end may
stand there. Whatever the four numbers are, the end is in place before anything is closed, nothing
is closed that is not open, and but for the standard stream the descriptors are in the end what
they were without the channel.

## The model

* `World.Lets` says that no failure is planned for the next calls of a name, of which there are
  some number: as many as the actions at hand make.
* `Closings` says that descriptors are closed one after the other, each being open when it is
  closed, with all tables on the way of one kind.
* `Binds` says that a standard stream is bound to what a descriptor leads to before what is spare
  is closed: the stream leads there from then on, and the descriptor up to then.

## What is proved

* What is open and let through is closed one after the other (`exists_closings`), and an end is
  bound (`exists_binds`), whichever of the numbers coincide.
* A side of a pipe begins once its end is bound (`Binds.pipeSide_eq`), and between the births of
  its children and the closing of its channel a pipe keeps its descriptors (`exists_told`).

The main result gives the descriptor tables exactly: those of the two children where their sides
begin, and that of the process behind the pipe. It is about the tables and not about what runs; a
program that is entered later has the table that its process then has.
-/

namespace LineShell

open Act

/-! ### Some calls that nothing hinders -/

/-- No failure is planned for the next `n` calls of a name. -/
def World.Lets (w : World) (c : CallName) (n : Nat) : Prop :=
  ∀ f ∈ w.faults, f.call = c → f.nth ≤ w.made.count c ∨ w.made.count c + n < f.nth

namespace World.Lets

variable {m : Machine} {c : CallName} {n : Nat}

theorem planned? {w : World} (h : w.Lets c (n + 1)) : w.planned? c = none := by
  refine World.planned?_eq_none fun f hf hcall => ?_
  have hnth := h f hf hcall
  omega

theorem of_le {w : World} {k : Nat} (h : w.Lets c n) (hk : k ≤ n) : w.Lets c k := by
  intro f hf hcall
  have hnth := h f hf hcall
  omega

/-- Behind a call there is one less to come. -/
theorem relinked (h : m.world.Lets c (n + 1)) (t : Descriptors) (event : Event) :
    (m.relinked c t event).world.Lets c n := by
  intro f hf hcall
  have hcount : (m.relinked c t event).world.made.count c = m.world.made.count c + 1 :=
    List.count_cons_self
  have hnth := h f hf hcall
  rw [hcount]
  omega

/-- A call of another name does not count. -/
theorem relinked_of_ne {d : CallName} (h : m.world.Lets c n) (hne : d ≠ c) (t : Descriptors)
    (event : Event) : (m.relinked d t event).world.Lets c n := by
  intro f hf hcall
  have hcount : (m.relinked d t event).world.made.count c = m.world.made.count c :=
    List.count_cons_of_ne hne
  rw [hcount]
  exact h f hf hcall

end World.Lets

/-! ### Closing what is open -/

/-- Descriptors are closed one after the other, and each is open when it is closed. All descriptor
tables on the way are of a kind. -/
inductive Closings (P : Descriptors → Prop) : List Nat → Machine → Machine → Prop where
  /-- Nothing is closed. -/
  | nil {m : Machine} (hm : P m.proc.fds) : Closings P [] m m
  /-- What is open is closed. -/
  | cons {fd : Nat} {fds : List Nat} {m m₁ m' : Machine} (hm : P m.proc.fds)
      (hopen : m.proc.fds.get? fd ≠ none) (hclose : close fd m = .ok () m₁) :
      Closings P fds m₁ m' → Closings P (fd :: fds) m m'

theorem Closings.closeAll_eq {P : Descriptors → Prop} {fds : List Nat} {m m' : Machine}
    (h : Closings P fds m m') : closeAll fds m = .ok () m' := by
  induction h with
  | nil _ => rfl
  | cons _ _ hclose _ ih => exact bind_eq_ok.2 ⟨(), _, hclose, ih⟩

/-- Descriptors that are open can be closed, each once, where no failure is planned for it. -/
theorem exists_closings {P : Descriptors → Prop} {fds : List Nat}
    (hP : ∀ t, ∀ fd ∈ fds, P t → P (t.erase fd)) {m : Machine}
    (hlets : m.world.Lets .close fds.length) (hnodup : fds.Nodup)
    (hopen : ∀ fd ∈ fds, m.proc.fds.get? fd ≠ none) (hm : P m.proc.fds) :
    ∃ m', Closings P fds m m' := by
  induction fds generalizing m with
  | nil => exact ⟨m, .nil hm⟩
  | cons fd fds ih =>
    obtain ⟨hfd, hfds⟩ := List.forall_mem_cons.1 hopen
    obtain ⟨hnot, hnodup⟩ := List.nodup_cons.1 hnodup
    have hclose := close_of_unplanned hlets.planned? hfd
    have hrest : ∀ x ∈ fds, (m.proc.fds.erase fd).get? x ≠ none := by
      intro x hx
      have hne : x ≠ fd := fun heq => hnot (heq ▸ hx)
      rw [Descriptors.get?_erase_of_ne _ hne]
      exact hfds x hx
    obtain ⟨m', hcloses⟩ := ih (fun t x hx => hP t x (List.mem_cons_of_mem fd hx))
      (hlets.relinked (m.proc.fds.erase fd) (.close fd (.ok ()))) hnodup hrest
      (hP _ fd List.mem_cons_self hm)
    exact ⟨m', .cons hm hfd hclose hcloses⟩

/-! ### Binding an end -/

/-- A standard stream is bound to what a descriptor leads to, and what is spare is closed behind
that: the descriptor leads to the open file up to the moment at which the stream does, and the stream
leads there from then on. -/
structure Binds (fd standard file : Nat) (spare : List Nat) (m m' : Machine) : Prop where
  /-- The open file is there. -/
  source : m.proc.fds.get? fd = some file
  /-- The stream is bound first, and then all but the stream is closed. -/
  bound : ∃ n, dup fd standard m = .ok () n ∧
    Closings (fun t => t.get? standard = some file) (spare.filter (· ≠ standard)) n m'

theorem Binds.bindStream_eq {fd standard file : Nat} {spare : List Nat} {m m' : Machine}
    (h : Binds fd standard file spare m m') : bindStream fd standard spare m = .ok () m' := by
  obtain ⟨n, hdup, hcloses⟩ := h.bound
  exact bind_eq_ok.2 ⟨(), n, hdup, hcloses.closeAll_eq⟩

section Channel

variable {t : Descriptors} {r w f g : Nat} (hp : t.Pair r w) {m : Machine}
  (hm : m.proc.fds = (t.set r f).set w g)
include hp hm

theorem get?_pair : m.proc.fds.get? r = some f ∧ m.proc.fds.get? w = some g := by
  rw [hm]
  constructor
  · rw [Descriptors.get?_set_of_ne _ _ hp.ne, Descriptors.get?_set_self]
  · exact Descriptors.get?_set_self ..

/-- An end of a channel is bound to a standard stream, be the stream open, closed, or one of the ends
itself. -/
theorem exists_binds {fd file : Nat} (hfd : fd = r ∧ file = f ∨ fd = w ∧ file = g) (standard : Nat)
    (hdup : m.world.Lets .dup 1) (hclose : m.world.Lets .close 2) :
    ∃ m', Binds fd standard file [r, w] m m' ∧ m'.proc.fds = t.set standard file := by
  obtain ⟨hr, hw⟩ := get?_pair hp hm
  have hsource : m.proc.fds.get? fd = some file := by
    rcases hfd with ⟨rfl, rfl⟩ | ⟨rfl, rfl⟩
    · exact hr
    · exact hw
  have hdup' := dup_of_unplanned hdup.planned? hsource standard
  let n := m.relinked .dup (m.proc.fds.set standard file) (.dup fd standard (.ok ()))
  have hlength : ([r, w].filter (· ≠ standard)).length ≤ 2 := List.length_filter_le _ _
  have hlets : n.world.Lets .close ([r, w].filter (· ≠ standard)).length :=
    (hclose.of_le hlength).relinked_of_ne (by decide) _ _
  have htwo : [r, w].Nodup := by simp [hp.ne]
  have hopen : ∀ x ∈ [r, w].filter (· ≠ standard), n.proc.fds.get? x ≠ none := by
    intro x hx
    obtain ⟨hmem, hne⟩ := List.mem_filter.1 hx
    show (m.proc.fds.set standard file).get? x ≠ none
    rw [Descriptors.get?_set_of_ne _ _ (by simpa using hne)]
    obtain rfl | rfl : x = r ∨ x = w := by simpa using hmem
    · simp [hr]
    · simp [hw]
  -- the stream is not among what is closed, so it stays bound
  have hkept : ∀ u : Descriptors, ∀ x ∈ [r, w].filter (· ≠ standard),
      u.get? standard = some file → (u.erase x).get? standard = some file := by
    intro u x hx hu
    have hne : x ≠ standard := by simpa using (List.mem_filter.1 hx).2
    rw [Descriptors.get?_erase_of_ne _ hne.symm, hu]
  obtain ⟨m', hcloses⟩ := exists_closings hkept hlets (htwo.filter _) hopen (Descriptors.get?_set_self ..)
  have hbinds : Binds fd standard file [r, w] m m' := ⟨hsource, n, hdup', hcloses⟩
  exact ⟨m', hbinds, bindStream_pair hp hm hfd hbinds.bindStream_eq⟩

/-- Both ends of a channel are closed. -/
theorem exists_closings_pair (hclose : m.world.Lets .close 2) :
    ∃ m', Closings (fun _ => True) [r, w] m m' ∧ m'.proc.fds = t := by
  obtain ⟨hr, hw⟩ := get?_pair hp hm
  have hopen : ∀ x ∈ [r, w], m.proc.fds.get? x ≠ none := by
    intro x hx
    obtain rfl | rfl : x = r ∨ x = w := by simpa using hx
    · simp [hr]
    · simp [hw]
  have hnodup : [r, w].Nodup := by simp [hp.ne]
  obtain ⟨m', hcloses⟩ := exists_closings (P := fun _ => True) (fun _ _ _ _ => True.intro) hclose
    hnodup hopen True.intro
  exact ⟨m', hcloses, closeAll_pair hp hm hcloses.closeAll_eq⟩

end Channel

/-! ### A pipe and its channel -/

/-- A side of a pipe begins once its end is bound. -/
theorem Binds.pipeSide_eq {fd standard file r w : Nat} {m m' : Machine}
    (h : Binds fd standard file [r, w] m m') (side : Act Status) :
    pipeSide side fd standard r w m = sideWork side m' := by
  unfold pipeSide
  rw [bind_eq, h.bindStream_eq]

/-- Between the births of its children and the closing of its channel a pipe keeps its
descriptors. -/
theorem exists_told (failure : Option Failure) (m : Machine) :
    ∃ told n, attempt (failure.forM (reportFork Operator.pipe.logger "pipe stage".toList)) m = .ok told n ∧
      n.proc.fds = m.proc.fds := by
  have hkeeps : Keeps Bound (failure.forM (reportFork Operator.pipe.logger "pipe stage".toList)) :=
    .failure (fun e => (Keeps.reportFork _ _ e).bound) failure
  obtain ⟨told, n, htold⟩ :=
    Answers.attempt (failure.forM (reportFork Operator.pipe.logger "pipe stage".toList)) m
  exact ⟨told, n, htold, hkeeps.attempt.of_ok htold⟩

/-- **A channel is bound right whatever descriptors are free.** A pipe that has made its channel has
the ends on two descriptors that were free before. Where no failure is planned for the calls in
question, the left child begins its side with the write end for its output, the right child with the
read end for its input, and both else with what the pipe had before; and the pipe, whether or not its
children could be made, has just that again before it waits. In all three only what is open is closed,
and a stream is bound before anything is closed and stays bound. -/
theorem channel_bound (a b : Act Status) {m m₁ : Machine} {r w : Nat}
    (hc : createChannel m = .ok (r, w) m₁) :
    ∃ f g, Channelled m m₁ r w f g ∧
      (m₁.born.world.Lets .dup 1 → m₁.born.world.Lets .close 2 →
        ∃ k, Binds w 1 g [r, w] m₁.born k ∧ k.proc.fds = m.proc.fds.set 1 g ∧
          pipeSide a w 1 r w m₁.born = sideWork a k) ∧
      (∀ pid n, spawn (pipeSide a w 1 r w) m₁ = .ok pid n →
        n.born.world.Lets .dup 1 → n.born.world.Lets .close 2 →
          ∃ k, Binds r 0 f [r, w] n.born k ∧ k.proc.fds = m.proc.fds.set 0 f ∧
            pipeSide b r 0 r w n.born = sideWork b k) ∧
      ∃ pids failure m₂ told n,
        Births (pipeSide a w 1 r w) (pipeSide b r 0 r w) m₁ (pids, failure) m₂ ∧
        attempt (failure.forM (reportFork Operator.pipe.logger "pipe stage".toList)) m₂ = .ok told n ∧
        (n.world.Lets .close 2 →
          ∃ k, Closings (fun _ => True) [r, w] n k ∧ k.proc.fds = m.proc.fds ∧
            piped a b m = (ofExcept told >>= fun _ => awaitStages pids) k) := by
  obtain ⟨f, g, hmade⟩ := createChannel_eq_ok hc
  refine ⟨f, g, hmade, ?_, ?_, ?_⟩
  · intro hdup hclose
    obtain ⟨k, hbinds, hfds⟩ := exists_binds hmade.pair (m := m₁.born) hmade.fds
      (Or.inr ⟨rfl, rfl⟩) 1 hdup hclose
    exact ⟨k, hbinds, hfds, hbinds.pipeSide_eq a⟩
  · intro pid n hs hdup hclose
    have hkept : n.proc.fds = m₁.proc.fds := (Keeps.spawn _).of_ok hs
    obtain ⟨k, hbinds, hfds⟩ := exists_binds hmade.pair (m := n.born) (hkept.trans hmade.fds)
      (Or.inl ⟨rfl, rfl⟩) 0 hdup hclose
    exact ⟨k, hbinds, hfds, hbinds.pipeSide_eq b⟩
  · rcases piped_cases a b m with ⟨e, he, -⟩ | ⟨r', w', m₁', pids, failure, m₂, hc', hbirths, hrun⟩
    · exact nomatch hc.symm.trans he
    obtain ⟨hends, rfl⟩ := EStateM.Result.ok.inj (hc.symm.trans hc')
    obtain ⟨rfl, rfl⟩ := Prod.mk.inj hends
    obtain ⟨told, n, htold, hn⟩ := exists_told failure m₂
    refine ⟨pids, failure, m₂, told, n, hbirths, htold, fun hclose => ?_⟩
    have hfds : n.proc.fds = (m.proc.fds.set r f).set w g :=
      (hn.trans hbirths.same.fds).trans hmade.fds
    obtain ⟨k, hcloses, hk⟩ := exists_closings_pair hmade.pair hfds hclose
    refine ⟨k, hcloses, hk, ?_⟩
    rw [hrun]
    unfold finishPipe
    rw [bind_eq, htold]
    show (closeAll [r, w] >>= _) n = _
    rw [bind_eq, hcloses.closeAll_eq]

/-- A session whose standard output is closed, so that a channel has its read end there. -/
def outputClosed : Machine := .boot .standard FileTree.home [] [1] [] []

/-- The write end takes the place of the read end in the left child. -/
theorem channel_bound_outputClosed :
    ∃ m₁ f g k, createChannel outputClosed = .ok (1, 3) m₁ ∧ m₁.proc.fds.get? 1 = some f ∧
      Binds 3 1 g [1, 3] m₁.born k ∧ k.proc.fds = outputClosed.proc.fds.set 1 g ∧
      k.proc.fds.numbers = [0, 1, 2] := by
  have hc : createChannel outputClosed = .ok (1, 3) (createChannel.after outputClosed) := by rfl
  obtain ⟨f, g, hmade, hleft, -, -⟩ := channel_bound (pure .success) (pure .success) hc
  have hnone : (createChannel.after outputClosed).born.world.faults = [] := by rfl
  have hlets (c : CallName) (n : Nat) : (createChannel.after outputClosed).born.world.Lets c n := by
    intro x hx
    rw [hnone] at hx
    cases hx
  obtain ⟨k, hbinds, hfds, -⟩ := hleft (hlets _ _) (hlets _ _)
  refine ⟨_, f, g, k, hc, (get?_pair hmade.pair hmade.fds).1, hbinds, hfds, ?_⟩
  rw [hfds]
  rfl

end LineShell
