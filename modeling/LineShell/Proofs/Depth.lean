import LineShell.Proofs.Apart
import LineShell.Proofs.Normal
import LineShell.Proofs.Growth

/-!
# Depths

The depth at which a tree runs shows in the log alone. What the log says of it may reach standard
error, so this holds where standard error leads to nothing that a program could read again.

## The model

* `World.Discreet` says where that is so: records that tell of no failure are not echoed, or
  standard error is closed, or it leads to the error output, to the null device, or to something
  that cannot be written to.
* `Outset` is what is known of two machines in which runs at different depths begin: they differ
  in the log alone, the first one has certain descriptors, and the log is discreet on a certain
  standard error. A child begins so if its maker does, so this relation hosts children.
* `AgreesFrom` says of two actions that from there on they come to the same but for the log.

## What is proved

* A record that tells of no failure makes no difference, whatever it says and whether or not it is
  made (`AgreesFrom.debug`, `AgreesFrom.debug_left`).
* The sides of a pipe have standard error where their maker has it (`bindStream_errors`), so what
  is known of the log goes on to them; pairs run alike if their sides do (`Twins.combine`).
* The sides of an accepted pair are accepted (`Tree.firstShared_sides`), so wherever a check for
  nodes reached twice falls in an accepted tree, it passes.
* Accepted trees run alike at every two depths (`execute_twins`). The induction is on the tree,
  for all depths at once.
-/

namespace LineShell

open Act

/-! ### Where the log goes -/

/-- The records that tell of no failure reach nothing that a program could read again: they are
not written out, or standard error is closed, or it leads to the error output. -/
def World.Discreet (w : World) (errors : Option Nat) : Prop :=
  (∀ n, w.echoFrom = some n → Level.info.number < n) ∨ errors = none ∨
    ∃ file f, errors = some file ∧ w.opened[file]? = some f ∧
      (f.target = .errors ∨ f.target = .null ∨ f.writes = false)

theorem World.Discreet.of_grows {w w' : World} {errors : Option Nat} (h : w.Discreet errors)
    (hg : w.Grows w') : w'.Discreet errors := by
  rcases h with h | h | ⟨file, f, herrors, hf, h⟩
  · refine Or.inl fun n hn => h n ?_
    rwa [hg.echoFrom] at hn
  · exact Or.inr (Or.inl h)
  · obtain ⟨f', hf', htarget, hwrites, -⟩ := hg.opened file f hf
    refine Or.inr (Or.inr ⟨file, f', herrors, hf', ?_⟩)
    rwa [htarget, hwrites]

/-- What the running process logs reaches nothing that a program could read again. -/
def Machine.Discreet (m : Machine) : Prop := m.world.Discreet (m.proc.fds.get? 2)

theorem Machine.Akin.discreet {m m' : Machine} (h : m.Akin m') (hd : m.Discreet) : m'.Discreet := by
  obtain ⟨e, j, s, rfl, -⟩ := h
  exact hd

/-- Where the log is discreet, what it writes to standard error stays apart. -/
theorem Machine.Akin.write_aside {m m' n : Machine} (h : m.Akin m') (hd : m.Discreet)
    {r : Record} (hr : r.level ≠ .error) (he : echoed m.world.echoFrom r = true)
    (hw : m.write true 2 (encode (recordLine r)) = .ok n) : n.Akin m' := by
  rcases hd with hquiet | hnone | ⟨file, f, hfile, hf, htarget⟩
  · cases ht : m.world.echoFrom with
    | none => simp [ht, echoed] at he
    | some k =>
      have hlt := hquiet k ht
      have hle : k ≤ r.level.number := by simpa [ht, echoed] using he
      cases hlevel : r.level with
      | error => exact absurd hlevel hr
      | debug =>
        rw [hlevel] at hle
        exact absurd (Nat.lt_of_lt_of_le hlt hle) (by decide)
      | info =>
        rw [hlevel] at hle
        exact absurd (Nat.lt_of_lt_of_le hlt hle) (by decide)
  · simp [Machine.write, hnone] at hw
  · obtain ⟨e, j, s, rfl, ha, hdeeds⟩ := h
    obtain ⟨file', w, hfile', hthrough, rfl⟩ := Machine.write_eq_ok hw
    obtain rfl := Option.some.inj (hfile.symm.trans hfile')
    obtain ⟨f', hf', hwrites, hwrote⟩ := World.write_eq_ok.1 hthrough
    obtain rfl := Option.some.inj (hf.symm.trans hf')
    have hakin : Machine.Akin { m with world := w } (m.apart e j m.world.echoFrom s) := by
      cases hwrote with
      | errors => exact ⟨e, j, s, rfl, ha.left he hr, hdeeds⟩
      | null => exact ⟨e, j, s, rfl, ha, hdeeds⟩
      | output ht => simp [ht, hwrites] at htarget
      | channel ht => simp [ht, hwrites] at htarget
      | place ht => simp [ht, hwrites] at htarget
    exact hakin.note_left rfl

/-- A record that tells of no failure makes no difference but in the log. -/
theorem logRecord_akin {m m' : Machine} (h : m.Akin m') (hd : m.Discreet) {r : Record}
    (hr : r.level ≠ .error) : ∃ n, logRecord r m = .ok () n ∧ n.Akin m' := by
  have hnoted : (m.note (.logged r)).Akin m' := h.note_left rfl
  have hrun : logRecord r m = (if echoed m.world.echoFrom r = true then
      (do let _ ← attempt (writeText true 2 (recordLine r))) else pure ()) (m.note (.logged r)) := rfl
  cases he : echoed m.world.echoFrom r with
  | false =>
    rw [he, if_neg (by simp)] at hrun
    exact ⟨_, hrun, hnoted⟩
  | true =>
    rw [he, if_pos rfl, bind_eq] at hrun
    unfold attempt writeText at hrun
    cases hw : (m.note (.logged r)).write true 2 (encode (recordLine r)) with
    | error errno =>
      rw [hw] at hrun
      exact ⟨_, hrun, hnoted⟩
    | ok n =>
      rw [hw] at hrun
      exact ⟨n, hrun, hnoted.write_aside hd hr he hw⟩

/-! ### Actions that agree where the log is discreet -/

/-- Machines that differ in the log alone, the first one with certain descriptors, where the log is
discreet on a certain standard error. -/
structure Outset (s : Descriptors) (x : Option Nat) (m m' : Machine) : Prop where
  /-- The descriptors are known. -/
  fds : m.proc.fds = s
  /-- What is logged reaches nothing that a program could read again. -/
  discreet : m.world.Discreet x
  /-- The machines differ in the log alone. -/
  akin : m.Akin m'

namespace Outset

variable {s : Descriptors} {x : Option Nat}

/-- What gives its descriptors back leaves the log as discreet as it was. -/
theorem stays {α : Type} {a : Act α} (hr : Restores a) (hg : Keeps Grown a) :
    Stays (Outset s x) Machine.Akin a := by
  intro m m' n n' y hm ha hn
  have hgrown := hg.of_ok ha
  exact ⟨(hr m y n ha).trans hm.fds, hm.discreet.of_grows hgrown, hn⟩

instance : Peers (Outset s x) := ⟨fun hm => Peers.proc hm.akin⟩

/-- A child begins with the descriptors of its maker, and leaves a world that differs in the log
alone. -/
instance : Hosts (Outset s x) Machine.Akin where
  related hm := hm.akin
  calm hk := stays (.of_bound hk.bound) hk.still.grown
  born pid := by
    rintro ⟨hs, hx, e, j, last, rfl, ha, hd⟩
    exact ⟨hs, hx, e, j, last, rfl, ha, hd⟩
  ended pid raw := by
    rintro ⟨-, -, e, j, last, rfl, -⟩ ⟨e', j', last', rfl, ha, hd⟩
    exact ⟨e', j', last, rfl, ha, hd⟩

/-- So does what makes one child. -/
theorem stays_spawn {work : Act ChildEnd} (h : Keeps Followed work) :
    Stays (Outset s x) Machine.Akin (attempt (spawn work)) :=
  stays (.of_bound (.attempt (.spawn work))) (.attempt (Keeps.spawn_followed h).grows)

end Outset

namespace Act

/-- Two actions that do the same but for what they log, from certain descriptors on, and where the
log is discreet on a certain standard error. -/
abbrev AgreesFrom {α : Type} (s : Descriptors) (x : Option Nat) (a b : Act α) : Prop :=
  InStep (Outset s x) Machine.Akin a b

/-- What a message says makes no difference. -/
theorem AgreesFrom.debug (s : Descriptors) (logger message message' : Text) :
    AgreesFrom s (s.get? 2) (Act.debug logger message) (Act.debug logger message') := by
  rintro m m' ⟨hs, hx, hm⟩
  subst hs
  have hr (message : Text) : (Record.mk .debug logger message none).level ≠ .error := by simp
  obtain ⟨n, hn, hakin⟩ := logRecord_akin hm hx (hr message)
  obtain ⟨n', hn', hakin'⟩ := logRecord_akin hakin.symm (hm.discreet hx) (hr message')
  unfold Act.debug
  rw [hn, hn']
  exact .ok hakin'.symm

/-- Nor does it make a difference that there is a message. -/
theorem AgreesFrom.debug_left (s : Descriptors) (logger message : Text) :
    AgreesFrom s (s.get? 2) (Act.debug logger message) (pure ()) := by
  rintro m m' ⟨hs, hx, hm⟩
  subst hs
  have hr : (Record.mk .debug logger message none).level ≠ .error := by simp
  obtain ⟨n, hn, hakin⟩ := logRecord_akin hm hx hr
  unfold Act.debug
  rw [hn]
  exact .ok hakin

end Act

/-! ### Operators and trees -/

/-- What is known of two runs of a tree at different depths. -/
structure Act.Twins (a b : Act Status) : Prop where
  /-- They do the same. -/
  agrees : ∀ s, AgreesFrom s (s.get? 2) a b
  /-- The first one gives its descriptors back. -/
  restores : Restores a
  /-- What the first one leaves follows from what it found. -/
  followed : Keeps Followed a

namespace Act.Twins

variable {a b a' b' : Act Status} (ha : Twins a a') (hb : Twins b b')
include ha hb

theorem inParallel (s : Descriptors) :
    AgreesFrom s (s.get? 2) (LineShell.inParallel a b) (LineShell.inParallel a' b') :=
  .inParallel (.spawnAll (.sideWork (ha.agrees s)) (Outset.stays_spawn (.bind ha.followed fun _ => .pure _))
    (.sideWork (hb.agrees s)))

end Act.Twins

/-- A process that runs a side of a pipe has standard error where its maker has it. -/
theorem bindStream_errors {t : Descriptors} {r w f g fd standard : Nat} (hp : t.Pair r w)
    {m m' : Machine} (hm : m.proc.fds = (t.set r f).set w g) (hs : standard ≠ 2)
    (h : bindStream fd standard [r, w] m = .ok () m') : m'.proc.fds.get? 2 = t.get? 2 := by
  obtain ⟨_, m₁, hd, hc⟩ := bind_eq_ok.1 h
  obtain ⟨file, -, hm₁⟩ := dup_eq_ok hd
  rw [closeAll_eq_ok hc, hm₁, hm, Descriptors.get?_set_of_ne _ _ hs.symm]
  by_cases hw : w = 2
  · subst hw
    simp [hs.symm, hp.right]
  by_cases hr : r = 2
  · subst hr
    simp [hs.symm, hp.left]
  · have hw' : 2 ≠ w := by omega
    have hr' : 2 ≠ r := by omega
    simp [hw', hr', Descriptors.get?_set_of_ne]

/-- The sides of a pipe agree if what they run does. -/
theorem Channelled.agrees {m m₁ : Machine} {r w f g : Nat} (hc : Channelled m m₁ r w f g)
    {a a' : Act Status} (ha : Twins a a') (fd : Nat) {standard : Nat} (hs : standard ≠ 2) :
    AgreesFrom m₁.proc.fds (m.proc.fds.get? 2) (LineShell.pipeSide a fd standard r w)
      (LineShell.pipeSide a' fd standard r w) := by
  rintro n n' ⟨hn, hx, hakin⟩
  refine (InStep.bindStream fd standard [r, w] n n' hakin).bind fun _ k k' hk hakin' => ?_
  have herrors := bindStream_errors hc.pair (hn.trans hc.fds) hs hk
  have hkeep := (Keeps.bindStream fd standard [r, w]).of_ok hk
  rw [← herrors] at hx
  exact InStep.sideWork (ha.agrees _) k k' ⟨rfl, hx.of_grows hkeep.still.grows, hakin'⟩

namespace Act.Twins

variable {a b a' b' : Act Status} (ha : Twins a a') (hb : Twins b b')
include ha hb

theorem piped (s : Descriptors) :
    AgreesFrom s (s.get? 2) (LineShell.piped a b) (LineShell.piped a' b') := by
  rintro m m' ⟨hs, hx, hm⟩
  subst hs
  refine Both.piped hm fun r w n n' hmade hn => ?_
  obtain ⟨f, g, hc⟩ := createChannel_eq_ok hmade
  have hkeep := Keeps.createChannel.of_ok hmade
  have hfollowed : Keeps Followed (LineShell.pipeSide a w 1 r w) :=
    .bind (Keeps.bindStream _ _ _).rebound_followed fun _ => .bind ha.followed fun _ => .pure _
  have hleft : (1 : Nat) ≠ 2 := by omega
  have hright : (0 : Nat) ≠ 2 := by omega
  have hspawn := InStep.spawnAll (hc.agrees ha w hleft) (Outset.stays_spawn hfollowed)
    (hc.agrees hb r hright)
  exact hspawn n n' ⟨rfl, hx.of_grows hkeep.still.grows, hn⟩

theorem combine (op : Operator) (s : Descriptors) :
    AgreesFrom s (s.get? 2) (LineShell.combine op a b) (LineShell.combine op a' b') :=
  .combine_of (ha.agrees s) (Outset.stays ha.restores ha.followed.grows) (hb.agrees s)
    (piped ha hb s) (inParallel ha hb s) op

end Act.Twins

/-! ### Trees -/

/-- A leaf runs alike at every depth. -/
theorem runLeaf_agrees (rules : Rules) (mark : Option Nat) (c : Command) (i j : Int)
    (s : Descriptors) :
    AgreesFrom s (s.get? 2) (runLeaf rules mark c i) (runLeaf rules mark c j) := by
  refine .runLeaf (AgreesFrom.debug s) rules mark c (fun h => ⟨h.fds, h.discreet, ?_⟩) i j
  obtain ⟨_, _, _, rfl, -⟩ := h.akin
  exact h.akin.note rfl

/-! ### Accepted trees -/

namespace Tree

/-- A walk over a pair meets the pair, then its left side, then its right side. -/
theorem marksAfter_binary {mark : Option Nat} {op : Operator} {l r : Tree}
    {seen after : List Nat} :
    (Tree.binary mark op l r).marksAfter seen = .ok after ↔
      ∃ s s', meet seen (.binary mark op l r) = .ok s ∧ l.marksAfter s = .ok s' ∧
        r.marksAfter s' = .ok after := by
  rw [marksAfter]
  cases meet seen (.binary mark op l r) with
  | error shared => simp [bind, Except.bind]
  | ok s => cases hl : l.marksAfter s <;> simp [bind, Except.bind, hl]

theorem meet_of_subset {t : Tree} {seen known after : List Nat} (hsub : known ⊆ seen)
    (h : meet seen t = .ok after) : ∃ marks, meet known t = .ok marks ∧ marks ⊆ after := by
  unfold meet at h ⊢
  cases hmark : t.mark with
  | none =>
    rw [hmark] at h
    obtain rfl := Except.ok.inj h
    exact ⟨known, rfl, hsub⟩
  | some m =>
    simp only [hmark, List.contains_iff_mem] at h ⊢
    by_cases hm : m ∈ seen
    · simp [hm] at h
    · have hm' : m ∉ known := fun hk => hm (hsub hk)
      rw [if_neg hm] at h
      obtain rfl := Except.ok.inj h
      exact ⟨m :: known, if_neg hm', List.cons_subset_cons m hsub⟩

/-- Fewer marks met before stop a walk no earlier. -/
theorem marksAfter_of_subset {t : Tree} {seen known after : List Nat} (hsub : known ⊆ seen)
    (h : t.marksAfter seen = .ok after) :
    ∃ marks, t.marksAfter known = .ok marks ∧ marks ⊆ after := by
  induction t generalizing seen known after with
  | leaf mark c => exact meet_of_subset hsub h
  | bare mark => exact meet_of_subset hsub h
  | binary mark op l r ihl ihr =>
    obtain ⟨s, s', hs, hs', h⟩ := marksAfter_binary.1 h
    obtain ⟨k, hk, hsub⟩ := meet_of_subset hsub hs
    obtain ⟨k', hk', hsub⟩ := ihl hsub hs'
    obtain ⟨marks, hmarks, hsub⟩ := ihr hsub h
    exact ⟨marks, marksAfter_binary.2 ⟨k, k', hk, hk', hmarks⟩, hsub⟩

theorem firstShared_eq_none {t : Tree} :
    t.firstShared = none ↔ ∃ marks, t.marksAfter [] = .ok marks := by
  unfold firstShared
  cases t.marksAfter [] <;> simp

/-- The sides of an accepted pair are accepted. -/
theorem firstShared_sides {mark : Option Nat} {op : Operator} {l r : Tree}
    (h : (Tree.binary mark op l r).firstShared = none) :
    l.firstShared = none ∧ r.firstShared = none := by
  obtain ⟨marks, h⟩ := firstShared_eq_none.1 h
  obtain ⟨s, s', -, hl, hr⟩ := marksAfter_binary.1 h
  obtain ⟨k, hl, -⟩ := marksAfter_of_subset (List.nil_subset s) hl
  obtain ⟨k', hr, -⟩ := marksAfter_of_subset (List.nil_subset s') hr
  exact ⟨firstShared_eq_none.2 ⟨k, hl⟩, firstShared_eq_none.2 ⟨k', hr⟩⟩

/-- In a tree without marks no node is reached twice. -/
theorem firstShared_unmarked {t : Tree} (h : t.unmarked = t) : t.firstShared = none := by
  have hmarks : ∀ seen, t.marksAfter seen = .ok seen := by
    induction t with
    | leaf mark c =>
      obtain ⟨rfl, -⟩ := Tree.leaf.inj h
      intro seen
      rfl
    | bare mark =>
      obtain rfl := Tree.bare.inj h
      intro seen
      rfl
    | binary mark op l r ihl ihr =>
      obtain ⟨rfl, -, hl, hr⟩ := Tree.binary.inj h
      intro seen
      show (do
        let seen ← Tree.marksAfter seen l
        Tree.marksAfter seen r) = _
      rw [ihl hl]
      exact ihr hr seen
  exact firstShared_eq_none.2 ⟨[], hmarks []⟩

end Tree

theorem refuseShared_accepted {t : Tree} (h : t.firstShared = none) : refuseShared t = pure () := by
  rw [refuseShared, h]
  rfl

/-- An accepted pair passes the check, so at every depth its sides are run. -/
theorem execute_pair (rules : Rules) {mark : Option Nat} {op : Operator} {l r : Tree}
    (h : (Tree.binary mark op l r).firstShared = none) (k : Int) :
    execute rules (.binary mark op l r) k
      = rules.runPair op (Tree.binary mark op l r).shown k (execute rules l (k + 1))
        (execute rules r (k + 1)) := by
  rw [execute]
  split
  · rw [refuseShared_accepted h]
    rfl
  · rfl

/-- Accepted trees run alike at every depth. -/
theorem execute_twins (rules : Rules) {t : Tree} (ht : t.firstShared = none) (i j : Int) :
    Twins (execute rules t i) (execute rules t j) := by
  refine ⟨?_, (execute_runs rules t i).restores, execute_followed rules t i⟩
  induction t generalizing i j with
  | leaf mark c =>
    intro s
    exact .bind (runLeaf_agrees rules mark c i j s) fun _ => .remember _
  | bare mark =>
    intro s
    exact .hosted (.throw _)
  | binary mark op l r ihl ihr =>
    obtain ⟨hl, hr⟩ := Tree.firstShared_sides ht
    intro s
    have htwins (t : Tree) (h : ∀ s, AgreesFrom s (s.get? 2) (execute rules t (i + 1))
        (execute rules t (j + 1))) : Twins (execute rules t (i + 1)) (execute rules t (j + 1)) :=
      ⟨h, (execute_runs rules t _).restores, execute_followed rules t _⟩
    have hcombine := Twins.combine (htwins l (ihl hl _ _)) (htwins r (ihr hr _ _)) op s
    have hruns := (execute_runs rules l (i + 1)).combine (execute_runs rules r (i + 1)) op
    have hfollowed := Keeps.combine_followed (execute_followed rules l (i + 1))
      (execute_followed rules r (i + 1)) op
    rw [execute_pair rules ht, execute_pair rules ht]
    exact .runPair (AgreesFrom.debug s) rules _ i j hcombine
      (Outset.stays hruns.restores hfollowed.grows)

end LineShell
