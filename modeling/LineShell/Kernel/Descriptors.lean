/-!
# Descriptor tables

Which open file each descriptor of a process refers to. Entries are kept in the order of their
numbers, so that two tables with the same entries are the same table.

## The model

`Descriptors` carries the proof that its entries are sorted, and every operation keeps it. A table
is seen through `get?`: tables that show the same are equal (`Descriptors.ext_get?`), and each
operation has a law for the descriptor that it changes and one for all others. So what a process
gives back can be stated as an equality of tables.

`Descriptors.free` is the lowest descriptor that is not open. It is where every call that makes a
descriptor puts it, so the number of a descriptor depends on which ones are open, and all that is
proved of channels and redirects where standard streams are closed comes down to the laws of
`free`.
-/

namespace LineShell

/-- A descriptor table: descriptors with the open files that they refer to, lowest first, each
descriptor once. -/
structure Descriptors where
  /-- The descriptors with their files. -/
  entries : List (Nat × Nat)
  /-- They stand in their order. -/
  sorted : entries.Pairwise fun a b => a.1 < b.1

namespace Descriptors

/-- The open file that a descriptor refers to. -/
def get? (t : Descriptors) (fd : Nat) : Option Nat :=
  (t.entries.find? fun e => e.1 == fd).map (·.2)

/-- The table with a descriptor closed. -/
def erase (t : Descriptors) (fd : Nat) : Descriptors where
  entries := t.entries.filter fun e => e.1 ≠ fd
  sorted := t.sorted.filter _

/-- The table with a descriptor referring to a file, whatever it referred to before. -/
def set (t : Descriptors) (fd file : Nat) : Descriptors where
  entries := t.entries.filter (fun e => e.1 < fd) ++ (fd, file) :: t.entries.filter fun e => fd < e.1
  sorted := by
    refine List.pairwise_append.2 ⟨t.sorted.filter _, List.pairwise_cons.2 ⟨?_, t.sorted.filter _⟩, ?_⟩
    · intro e he
      simpa using (List.mem_filter.1 he).2
    · intro a ha b hb
      have ha' : a.1 < fd := by simpa using (List.mem_filter.1 ha).2
      rcases List.mem_cons.1 hb with rfl | hb
      · exact ha'
      · exact Nat.lt_trans ha' (by simpa using (List.mem_filter.1 hb).2)

/-- The standard streams on the first three open files. -/
def standard : Descriptors where
  entries := [(0, 0), (1, 1), (2, 2)]
  sorted := by decide

/-- The open descriptors, lowest first. -/
def numbers (t : Descriptors) : List Nat :=
  t.entries.map (·.1)

/-- The lowest number, from `n` on, that some entries do not use. -/
def freeFrom (n : Nat) : List (Nat × Nat) → Nat
  | [] => n
  | e :: es => if e.1 = n then freeFrom (n + 1) es else if e.1 < n then freeFrom n es else n

/-- The lowest free descriptor. -/
def free (t : Descriptors) : Nat :=
  freeFrom 0 t.entries

/-! ### The view `get?` -/

/-- The entries are what `get?` shows. -/
theorem mem_entries_iff (t : Descriptors) (fd file : Nat) :
    (fd, file) ∈ t.entries ↔ t.get? fd = some file := by
  obtain ⟨es, hs⟩ := t
  simp only [get?]
  induction es with
  | nil => simp
  | cons e es ih =>
    obtain ⟨hlt, hs⟩ := List.pairwise_cons.1 hs
    by_cases h : e.1 = fd
    · have hes : (fd, file) ∉ es := fun hm => by
        have := hlt _ hm
        simp only at this
        omega
      obtain ⟨d, old⟩ := e
      simp only at h
      subst h
      simp [hes, eq_comm]
    · have hne : (fd, file) ≠ e := fun he => h (by rw [← he])
      simp [hne, h, ih hs]

/-- Tables that show the same are the same. -/
theorem ext_get? {t u : Descriptors} (h : ∀ fd, t.get? fd = u.get? fd) : t = u := by
  have nodup (t : Descriptors) : t.entries.Nodup :=
    t.sorted.imp fun hab hne => by simp [hne] at hab
  have hperm : t.entries.Perm u.entries :=
    (List.perm_ext_iff_of_nodup (nodup t) (nodup u)).2 fun (fd, file) => by
      rw [mem_entries_iff, mem_entries_iff, h]
  have heq : t.entries = u.entries :=
    hperm.eq_of_pairwise (fun a b _ _ hab hba => absurd hab (Nat.lt_asymm hba)) t.sorted u.sorted
  obtain ⟨es, hs⟩ := t
  obtain ⟨fs, ht⟩ := u
  subst heq
  rfl

/-- A descriptor is open if it refers to something. -/
theorem mem_numbers_iff (t : Descriptors) (fd : Nat) : fd ∈ t.numbers ↔ ∃ file, t.get? fd = some file := by
  simp [numbers, ← mem_entries_iff]

/-- A descriptor refers to what it was set to. -/
@[simp] theorem get?_set_self (t : Descriptors) (fd file : Nat) :
    (t.set fd file).get? fd = some file := by
  rw [← mem_entries_iff]
  simp [set]

/-- Setting one descriptor changes no other. -/
theorem get?_set_of_ne (t : Descriptors) {fd other : Nat} (file : Nat) (h : other ≠ fd) :
    (t.set fd file).get? other = t.get? other := by
  refine Option.ext fun f => ?_
  rw [← mem_entries_iff, ← mem_entries_iff]
  simp only [set, List.mem_append, List.mem_cons, List.mem_filter, Prod.mk.injEq, h, false_and,
    false_or, decide_eq_true_eq]
  constructor
  · rintro (hm | hm)
    · exact hm.1
    · exact hm.1
  · intro hm
    rcases Nat.lt_or_gt_of_ne h with hlt | hlt
    · exact Or.inl ⟨hm, hlt⟩
    · exact Or.inr ⟨hm, hlt⟩

/-- A closed descriptor refers to nothing. -/
@[simp] theorem get?_erase_self (t : Descriptors) (fd : Nat) : (t.erase fd).get? fd = none := by
  refine Option.eq_none_iff_forall_ne_some.2 fun f hf => ?_
  rw [← mem_entries_iff] at hf
  simp [erase] at hf

/-- Closing one descriptor changes no other. -/
theorem get?_erase_of_ne (t : Descriptors) {fd other : Nat} (h : other ≠ fd) :
    (t.erase fd).get? other = t.get? other := by
  refine Option.ext fun f => ?_
  rw [← mem_entries_iff, ← mem_entries_iff]
  simp [erase, h]

/-! ### The lowest free descriptor -/

theorem le_freeFrom (n : Nat) (es : List (Nat × Nat)) : n ≤ freeFrom n es := by
  fun_induction freeFrom n es with
  | case1 => exact Nat.le_refl _
  | case2 e es ih => exact Nat.le_of_succ_le ih
  | case3 n e es h h' ih => exact ih
  | case4 => exact Nat.le_refl _

/-- The lowest free number is not used. -/
theorem freeFrom_not_mem {n : Nat} {es : List (Nat × Nat)}
    (hs : es.Pairwise fun a b => a.1 < b.1) (file : Nat) : (freeFrom n es, file) ∉ es := by
  fun_induction freeFrom n es with
  | case1 => simp
  | case2 e es ih =>
    obtain ⟨-, hs⟩ := List.pairwise_cons.1 hs
    intro hm
    rcases List.mem_cons.1 hm with h | h
    · have := le_freeFrom (e.1 + 1) es
      have : freeFrom (e.1 + 1) es = e.1 := congrArg Prod.fst h
      omega
    · exact ih hs h
  | case3 n e es he he' ih =>
    obtain ⟨-, hs⟩ := List.pairwise_cons.1 hs
    intro hm
    rcases List.mem_cons.1 hm with h | h
    · have := le_freeFrom n es
      have : freeFrom n es = e.1 := congrArg Prod.fst h
      omega
    · exact ih hs h
  | case4 n e es he he' =>
    obtain ⟨hlt, -⟩ := List.pairwise_cons.1 hs
    intro hm
    rcases List.mem_cons.1 hm with h | h
    · rw [← h] at he
      exact he rfl
    · have := hlt _ h
      simp only at this
      omega

/-- A free descriptor refers to nothing. -/
@[simp] theorem get?_free (t : Descriptors) : t.get? t.free = none := by
  refine Option.eq_none_iff_forall_ne_some.2 fun file hf => ?_
  exact freeFrom_not_mem t.sorted file ((mem_entries_iff t _ _).2 hf)

/-- An open descriptor is not free. -/
theorem ne_free_of_get? {t : Descriptors} {fd file : Nat} (h : t.get? fd = some file) :
    fd ≠ t.free := by
  rintro rfl
  simp at h

/-- If all descriptors up to some number are open, the free one lies beyond. -/
theorem lt_free {t : Descriptors} {n : Nat} (h : ∀ fd ≤ n, ∃ file, t.get? fd = some file) :
    n < t.free := by
  refine Nat.lt_of_not_le fun hle => ?_
  obtain ⟨file, hf⟩ := h _ hle
  exact ne_free_of_get? hf rfl

end Descriptors

end LineShell
