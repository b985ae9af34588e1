import LineShell.Kernel.Call

/-!
# File trees only grow

Nothing is ever removed from a file tree and nothing becomes something else: what changes is what
files hold, and new files come. So a path that names a place goes on naming it, and opening a file
gives access to the place that its path names from then on.

## The model

`FileTree.Grows` says of two trees that whatever stands in the first one stands in the second one
as a node of the same kind with the same mode (`Node.Like`). `Target.IsAt` says that what an open
file gives access to is what a path names: the place, or the null device.

## What is proved

* Putting something like what stood at a place, or something where nothing stood, is growth
  (`FileTree.grows_put`), and walks go the same way in a tree that has grown
  (`FileTree.Grows.walk`, `FileTree.Grows.resolve`).
* A path is walked along its directory part first and then along its name
  (`FileTree.exists_walk`). Where a path names nothing yet and a new file is made for it, nothing
  stood there, and once something does the path names it (`FileTree.newPlace_spec`).
* So an open that succeeds leaves a tree that has grown, in which its path names what was opened
  (`locate_spec`, `access_spec`).

What a file holds is no part of this; it may change with every write.
-/

namespace LineShell

/-- A node of the same kind with the same mode; what a file holds may differ. -/
def Node.Like : Node → Node → Prop
  | .directory m, .directory m' => m = m'
  | .file m _ p, .file m' _ p' => m = m' ∧ p = p'
  | .null, .null => True
  | _, _ => False

theorem Node.Like.refl (n : Node) : n.Like n := by
  cases n <;> simp [Like]

theorem Node.Like.trans {a b c : Node} (hab : a.Like b) (hbc : b.Like c) : a.Like c := by
  cases a <;> cases b <;> cases c <;> simp_all [Like]

namespace FileTree

/-! ### What stands at a place -/

@[simp] theorem node?_put_self (t : FileTree) (place : Place) (node : Node) :
    (t.put place node).node? place = some node := by
  induction t with
  | nil => simp [put, node?]
  | cons e es ih =>
    unfold put
    split
    · simp [node?]
    · next h =>
      have h' : ¬e.1 = place := by simpa using h
      simpa [node?, h'] using ih

theorem node?_put_of_ne (t : FileTree) {place other : Place} (node : Node) (h : other ≠ place) :
    (t.put place node).node? other = t.node? other := by
  induction t with
  | nil => simp [put, node?, Ne.symm h]
  | cons e es ih =>
    unfold put
    split
    · next he =>
      have he' : e.1 = place := by simpa using he
      simp [node?, he', Ne.symm h]
    · by_cases ho : e.1 = other
      · simp [node?, ho]
      · simpa [node?, ho] using ih

/-- A tree in which everything that stood in another one still stands. -/
def Grows (t u : FileTree) : Prop :=
  ∀ place node, t.node? place = some node → ∃ node', u.node? place = some node' ∧ node.Like node'

theorem Grows.refl (t : FileTree) : t.Grows t := fun _ node h => ⟨node, h, .refl node⟩

theorem Grows.trans {t u v : FileTree} (htu : t.Grows u) (huv : u.Grows v) : t.Grows v := by
  intro place node h
  obtain ⟨node', h', hl⟩ := htu place node h
  obtain ⟨node'', h'', hl'⟩ := huv place node' h'
  exact ⟨node'', h'', hl.trans hl'⟩

/-- Putting something like what stood at a place, or something where nothing stood, is growth. -/
theorem grows_put {t : FileTree} {place : Place} {node : Node}
    (h : ∀ old, t.node? place = some old → old.Like node) : t.Grows (t.put place node) := by
  intro other old ho
  by_cases hp : other = place
  · subst hp
    exact ⟨node, node?_put_self t other node, h old ho⟩
  · exact ⟨old, by rw [node?_put_of_ne t node hp, ho], .refl old⟩

/-! ### Walking -/

theorem Grows.directory {t u : FileTree} (h : t.Grows u) {place : Place} {mode : Mode}
    (hd : t.node? place = some (.directory mode)) : u.node? place = some (.directory mode) := by
  obtain ⟨node, hu, hl⟩ := h place _ hd
  cases node with
  | directory m => rw [hu, show m = mode from hl.symm]
  | file => exact hl.elim
  | null => exact hl.elim

theorem Grows.null {t u : FileTree} (h : t.Grows u) {place : Place}
    (hn : t.node? place = some .null) : u.node? place = some .null := by
  obtain ⟨node, hu, hl⟩ := h place _ hn
  cases node with
  | null => exact hu
  | file => exact hl.elim
  | directory => exact hl.elim

theorem Grows.isSome {t u : FileTree} (h : t.Grows u) {place : Place}
    (hs : (t.node? place).isSome = true) : (u.node? place).isSome = true := by
  obtain ⟨node, hn⟩ := Option.isSome_iff_exists.1 hs
  obtain ⟨node', hu, -⟩ := h place node hn
  simp [hu]

/-- A walk that succeeds goes the same way in a tree that has grown. -/
theorem Grows.walk {t u : FileTree} (h : t.Grows u) {here place : Place} {names : List Text}
    (hw : t.walk here names = .ok place) : u.walk here names = .ok place := by
  fun_induction FileTree.walk t here names with
  | case1 => exact hw
  | case2 here names mode hd ih =>
    simp only [FileTree.walk, h.directory hd]
    rw [if_pos trivial, ih hw]
  | case3 => simp at hw
  | case4 => simp at hw
  | case5 here names mode hd hn hp hl ih =>
    simp only [FileTree.walk, h.directory hd]
    rw [if_neg hn, if_neg hp, if_neg hl, if_pos trivial, ih hw]
  | case6 here names mode hd hn hp hl hdot ih =>
    simp only [FileTree.walk, h.directory hd]
    rw [if_neg hn, if_neg hp, if_neg hl, if_neg hdot, if_pos trivial, ih hw]
  | case7 here name names mode hd hn hp hl hdot hdots hs ih =>
    simp only [FileTree.walk, h.directory hd]
    rw [if_neg hn, if_neg hp, if_neg hl, if_neg hdot, if_neg hdots, if_pos (h.isSome hs), ih hw]
  | case8 => simp at hw
  | case9 => simp at hw
  | case10 => simp at hw

/-- A path goes on naming what it names. -/
theorem Grows.resolve {t u : FileTree} (h : t.Grows u) {cwd place : Place} {path : Text}
    (hr : t.resolve cwd path = .ok place) : u.resolve cwd path = .ok place := by
  unfold FileTree.resolve at hr ⊢
  split at hr
  · simp at hr
  · next hp => rw [if_neg hp, h.walk hr]

/-! ### New files -/

theorem walk_append (t : FileTree) (here : Place) (names more : List Text) :
    t.walk here (names ++ more) = (t.walk here names).bind fun place => t.walk place more := by
  fun_induction FileTree.walk t here names with
  | case1 => rfl
  | case2 here names mode hd ih => simp [FileTree.walk, hd, ih]
  | case3 here name names mode hd hn hp => simp [FileTree.walk, hd, hn, hp, Except.bind]
  | case4 here name names mode hd hn hp hl => simp [FileTree.walk, hd, hn, hp, hl, Except.bind]
  | case5 here names mode hd hp hn hl ih => simp [FileTree.walk, hd, hp, hl, ih]
  | case6 here names mode hd hp hn hl hdot ih => simp [FileTree.walk, hd, hp, hl, ih]
  | case7 here name names mode hd hn hp hl hdot hdots hs ih =>
    simp [FileTree.walk, hd, hn, hp, hl, hdot, hdots, hs, ih]
  | case8 here name names mode hd hn hp hl hdot hdots hs =>
    simp [FileTree.walk, hd, hn, hp, hl, hdot, hdots, hs, Except.bind]
  | case9 here name names node hd hne =>
    cases node <;> simp_all [FileTree.walk, Except.bind]
  | case10 here name names hd => simp [FileTree.walk, hd, Except.bind]

end FileTree

/-- Cutting at a separator that stands between two texts. -/
theorem splitAt_append (s : Char) (a b : Text) :
    splitAt s (a ++ s :: b) = splitAt s a ++ splitAt s b := by
  induction a with
  | nil => simp [splitAt]
  | cons c a ih =>
    rw [List.cons_append, splitAt, splitAt, ih]
    split
    · rfl
    · cases h : splitAt s a with
      | nil => exact absurd h (splitAt_ne_nil s a)
      | cons piece pieces => rfl

theorem splitAt_of_not_mem {s : Char} {t : Text} (h : s ∉ t) : splitAt s t = [t] := by
  induction t with
  | nil => rfl
  | cons c t ih =>
    obtain ⟨hc, ht⟩ : s ≠ c ∧ s ∉ t := by simpa using h
    simp [splitAt, Ne.symm hc, ih ht]

namespace FileTree

/-- A path is a part that is empty or ends with a slash, and a name without one. -/
theorem exists_of_splitName (path : Text) :
    ∃ body, path = body ++ (splitName path).2 ∧ '/' ∉ (splitName path).2 ∧
      (splitName path).1 = (if body = [] then ['.'] else body) ∧
      (body = [] ∨ ∃ b, body = b ++ ['/']) := by
  let name := (path.reverse.takeWhile (· ≠ '/')).reverse
  let body := (path.reverse.dropWhile (· ≠ '/')).reverse
  have hpath : path = body ++ name := by
    rw [← List.reverse_append, List.takeWhile_append_dropWhile, List.reverse_reverse]
  have htake : path.take (path.length - name.length) = body := by
    have hlength : path.length - name.length = body.length := by
      have := congrArg List.length hpath
      rw [List.length_append] at this
      omega
    rw [hlength, hpath, List.take_left]
  refine ⟨body, hpath, ?_, ?_, ?_⟩
  · intro hm
    have hm' : '/' ∈ path.reverse.takeWhile (· ≠ '/') := List.mem_reverse.1 hm
    simpa using List.all_eq_true.1 List.all_takeWhile _ hm'
  · show (if path.take (path.length - name.length) = [] then ['.'] else _) = _
    rw [htake]
  · rcases hd : path.reverse.dropWhile (· ≠ '/') with _ | ⟨c, cs⟩
    · exact Or.inl (congrArg List.reverse hd)
    · have hc : c = '/' := by
        have := List.head?_dropWhile_not (· ≠ '/') path.reverse
        rw [hd] at this
        simpa using this
      exact Or.inr ⟨cs.reverse, (congrArg List.reverse hd).trans (by simp [hc])⟩

/-- A walk that ends with an empty name has found a directory. -/
theorem walk_of_append_nil {t : FileTree} {here place : Place} {names : List Text}
    (h : t.walk here (names ++ [[]]) = .ok place) : t.walk here names = .ok place := by
  rw [walk_append] at h
  cases hw : t.walk here names with
  | error e => simp [hw, Except.bind] at h
  | ok p =>
    simp only [hw, Except.bind, walk] at h
    split at h
    · exact h
    · simp at h
    · simp at h

/-- A path is walked along its directory part first, then along its name. -/
theorem exists_walk (cwd : Place) {path : Text} (hp : path ≠ []) :
    ∃ start names, ∀ t : FileTree,
      t.resolve cwd path = t.walk start (names ++ [(splitName path).2]) ∧
        ∀ place, t.resolve cwd (splitName path).1 = .ok place → t.walk start names = .ok place := by
  obtain ⟨body, hpath, hname, hdir, hbody⟩ := exists_of_splitName path
  generalize (splitName path).2 = name at *
  rw [hdir]
  rcases hbody with rfl | ⟨b, rfl⟩
  · rw [List.nil_append] at hpath
    subst hpath
    have hhead : path.head? ≠ some '/' := by
      intro h
      exact hname (List.mem_of_head? h)
    refine ⟨cwd, [], fun t => ⟨?_, ?_⟩⟩
    · rw [resolve, if_neg hp, if_neg hhead, splitAt_of_not_mem hname]
      rfl
    · intro place h
      have hdot : splitAt '/' ['.'] = [['.']] := rfl
      rw [if_pos rfl, resolve, if_neg (by simp), if_neg (by simp), hdot, walk] at h
      split at h
      · rw [if_neg (by simp)] at h
        split at h
        · simp at h
        · split at h
          · simp at h
          · simpa [walk] using h
      · simp at h
      · simp at h
  · have hne : b ++ ['/'] ≠ [] := by simp
    have hhead : path.head? = (b ++ ['/']).head? := by
      rw [hpath]
      cases b <;> rfl
    refine ⟨if path.head? = some '/' then [] else cwd, splitAt '/' b, fun t => ⟨?_, ?_⟩⟩
    · have hcut : splitAt '/' path = splitAt '/' b ++ [name] := by
        rw [hpath, List.append_assoc, List.singleton_append, splitAt_append,
          splitAt_of_not_mem hname]
      rw [resolve, if_neg hp, hcut]
    · intro place h
      rw [if_neg hne, resolve, if_neg hne, ← hhead, splitAt_append, splitAt_nil] at h
      exact walk_of_append_nil h

/-- A name that leads nowhere is free, and leads to whatever is put there. -/
theorem walk_name {t u : FileTree} {here : Place} {mode : Mode} {name : Text}
    (ht : t.node? here = some (.directory mode)) (hu : u.node? here = some (.directory mode))
    (h : t.walk here [name] = .error .noEntry) :
    t.node? (here ++ [name]) = none ∧
      ((u.node? (here ++ [name])).isSome = true → u.walk here [name] = .ok (here ++ [name])) := by
  simp only [walk, ht, hu] at h ⊢
  by_cases hname : name = []
  · simp [hname] at h
  by_cases hpass : (!mode.pass) = true
  · simp [hname, hpass] at h
  by_cases hlong : longestName < (encode name).length
  · simp [hname, hpass, hlong] at h
  by_cases hdot : name = ['.']
  · rw [if_neg hname, if_neg hpass, if_neg hlong, if_pos hdot] at h
    simp at h
  by_cases hdots : name = ['.', '.']
  · rw [if_neg hname, if_neg hpass, if_neg hlong, if_neg hdot, if_pos hdots] at h
    simp at h
  rw [if_neg hname, if_neg hpass, if_neg hlong, if_neg hdot, if_neg hdots] at h ⊢
  constructor
  · cases hn : t.node? (here ++ [name]) with
    | none => rfl
    | some node => simp [hn] at h
  · intro hs
    rw [if_pos hs]

/-- Where a path names nothing but names a new file, nothing stands there yet; and once something
stands there the path names it. -/
theorem newPlace_spec {t : FileTree} {cwd place : Place} {path : Text} (node : Node)
    (hr : t.resolve cwd path = .error .noEntry) (hn : t.newPlace cwd path = .ok place) :
    t.node? place = none ∧ (t.put place node).resolve cwd path = .ok place := by
  unfold newPlace at hn
  split at hn
  · simp at hn
  next hp =>
  split at hn
  · simp at hn
  split at hn
  · simp at hn
  next directory hdirectory =>
  split at hn
  · next mode hmode =>
    split at hn
    · obtain rfl := Except.ok.inj hn
      obtain ⟨start, names, hwalk⟩ := exists_walk cwd hp
      have hstart := (hwalk t).2 directory hdirectory
      have hname : t.walk directory [(splitName path).2] = .error .noEntry := by
        rw [(hwalk t).1, walk_append, hstart] at hr
        exact hr
      have hfree := (walk_name hmode hmode hname).1
      have hgrows : t.Grows (t.put (directory ++ [(splitName path).2]) node) :=
        grows_put fun old hold => by simp [hfree] at hold
      refine ⟨hfree, ?_⟩
      rw [(hwalk _).1, walk_append, hgrows.walk hstart]
      exact (walk_name hmode (hgrows.directory hmode) hname).2 (by simp)
    · simp at hn
  · simp at hn
  · simp at hn

end FileTree

/-! ### Opening -/

/-- A target is what a path names: the place, or the null device. -/
def Target.IsAt (target : Target) (files : FileTree) (cwd : Place) (path : Text) : Prop :=
  ∃ place, files.resolve cwd path = .ok place ∧
    (target = .place place ∨ target = .null ∧ files.node? place = some .null)

theorem Target.IsAt.of_grows {target : Target} {t u : FileTree} {cwd : Place} {path : Text}
    (h : target.IsAt t cwd path) (hg : t.Grows u) : target.IsAt u cwd path := by
  obtain ⟨place, hr, ht⟩ := h
  exact ⟨place, hg.resolve hr, ht.imp_right (And.imp_right hg.null)⟩

namespace Act

theorem locate_spec {files after : FileTree} {cwd place : Place} {path : Text} {mode : OpenMode}
    (h : locate files cwd path mode = .ok (place, after)) :
    files.Grows after ∧ after.resolve cwd path = .ok place := by
  unfold locate at h
  split at h
  · next hr =>
    obtain ⟨rfl, rfl⟩ := Prod.mk.inj (Except.ok.inj h)
    exact ⟨.refl _, hr⟩
  · next hr =>
    split at h
    · simp at h
    · cases hn : files.newPlace cwd path with
      | error e => simp [hn, Except.map] at h
      | ok new =>
        rw [hn] at h
        obtain ⟨rfl, rfl⟩ := Prod.mk.inj (Except.ok.inj h)
        obtain ⟨hfree, hresolve⟩ := FileTree.newPlace_spec (.file .plain [] none) hr hn
        exact ⟨FileTree.grows_put fun old hold => by simp [hfree] at hold, hresolve⟩
  · simp at h

theorem access_spec {files after : FileTree} {place : Place} {mode : OpenMode} {target : Target}
    (h : access files place mode = .ok (target, after)) :
    files.Grows after ∧
      (target = .place place ∨ target = .null ∧ after.node? place = some .null) := by
  have hput {m : Mode} {data data' : Bytes} {program : Option Program}
      (hn : files.node? place = some (.file m data program)) :
      files.Grows (files.put place (.file m data' program)) := by
    refine FileTree.grows_put fun old hold => ?_
    obtain rfl := Option.some.inj (hn.symm.trans hold)
    exact ⟨rfl, rfl⟩
  unfold access at h
  split at h
  · simp at h
  · split at h
    · simp at h
    · split at h
      · obtain ⟨rfl, rfl⟩ := Prod.mk.inj (Except.ok.inj h)
        exact ⟨.refl _, Or.inl rfl⟩
      · simp at h
  · next hn =>
    obtain ⟨rfl, rfl⟩ := Prod.mk.inj (Except.ok.inj h)
    exact ⟨.refl _, Or.inr ⟨rfl, hn⟩⟩
  · next m data program hn =>
    split at h
    · split at h
      · obtain ⟨rfl, rfl⟩ := Prod.mk.inj (Except.ok.inj h)
        exact ⟨.refl _, Or.inl rfl⟩
      · simp at h
    · split at h
      · simp at h
      · split at h
        · obtain ⟨rfl, rfl⟩ := Prod.mk.inj (Except.ok.inj h)
          exact ⟨hput hn, Or.inl rfl⟩
        · obtain ⟨rfl, rfl⟩ := Prod.mk.inj (Except.ok.inj h)
          exact ⟨hput hn, Or.inl rfl⟩

end Act

end LineShell
