import WorkflowRecipes.Yaml.Cursor

/-!
# Reading at a cursor

What a cursor sees of the text behind it, and how much text each way of reading leaves.

Results:
1. `takeRun_append`, `takeRun_of_not_sees`: the run that is taken from a text.
2. `length_takeRun_lt`, `length_skip_lt`, `length_readBreak_lt`: what is seen is left behind.
3. `step_induction`: a property of readers that may take as many steps as there are characters.
-/

namespace WorkflowRecipes.Yaml.Cursor

variable {c : Cursor} {d : Char} {s : List Char} {p : Char → Bool}

/-! ## What is seen -/

theorem sees_nil (h : c.rest = []) (p : Char → Bool) : c.sees p = false := by
  rw [sees, h]

theorem sees_cons (h : c.rest = d :: s) (p : Char → Bool) : c.sees p = p d := by
  rw [sees, h]

theorem isAt_nil (h : c.rest = []) (e : Char) : c.isAt e = false := sees_nil h _

theorem isAt_cons (h : c.rest = d :: s) (e : Char) : c.isAt e = (d == e) := sees_cons h _

theorem exists_cons_of_sees (h : c.sees p = true) : ∃ d s, c.rest = d :: s ∧ p d = true := by
  cases hrest : c.rest with
  | nil =>
    rw [sees_nil hrest] at h
    cases h
  | cons d s => exact ⟨d, s, rfl, sees_cons hrest p ▸ h⟩

/-! ## What is left -/

@[simp] theorem rest_past (c : Cursor) (n : Nat) (rest : List Char) : (c.past n rest).rest = rest :=
  rfl

theorem rest_skip (h : c.rest = d :: s) : c.skip.rest = s := congrArg List.tail h

theorem run_append {taken : List Char} (h : ∀ d ∈ taken, p d = true)
    (hs : s.head?.all fun d => !p d) : run p (taken ++ s) = (taken, taken.length, s) := by
  induction taken with
  | nil =>
    cases s with
    | nil => rfl
    | cons d s => simpa [run] using hs
  | cons d taken ih =>
    obtain ⟨hd, htaken⟩ := List.forall_mem_cons.mp h
    rw [List.cons_append, run, if_pos hd, ih htaken]
    rfl

/-- A run is taken as a whole. -/
theorem takeRun_append {taken : List Char} (hrest : c.rest = taken ++ s)
    (h : ∀ d ∈ taken, p d = true) (hs : s.head?.all fun d => !p d) :
    c.takeRun p = (taken, c.past taken.length s) := by
  rw [takeRun, hrest, run_append h hs]

/-- Nothing is taken where no run starts. -/
theorem takeRun_of_not_sees (h : c.sees p = false) : c.takeRun p = ([], c) := by
  refine takeRun_append (show c.rest = [] ++ c.rest from rfl) nofun ?_
  cases hrest : c.rest with
  | nil => rfl
  | cons d s =>
    rw [sees_cons hrest] at h
    rw [List.head?_cons, Option.all_some, h]
    rfl

theorem skipRun_of_not_sees (h : c.sees p = false) : c.skipRun p = c := by
  rw [skipRun, takeRun_of_not_sees h]

theorem skipComment_of_not_isAt (h : c.isAt '#' = false) : c.skipComment = c := by
  rw [skipComment, h, if_neg Bool.false_ne_true]

theorem length_run_le (p : Char → Bool) (s : List Char) : (run p s).2.2.length ≤ s.length := by
  induction s with
  | nil => exact Nat.le_refl 0
  | cons d s ih =>
    rw [run]
    split
    · exact Nat.le_succ_of_le ih
    · exact Nat.le_refl _

theorem length_takeRun_le (c : Cursor) (p : Char → Bool) :
    (c.takeRun p).2.rest.length ≤ c.rest.length := length_run_le p c.rest

theorem length_takeRun_lt (h : c.sees p = true) :
    (c.takeRun p).2.rest.length < c.rest.length := by
  obtain ⟨d, s, hrest, hd⟩ := exists_cons_of_sees h
  rw [takeRun, hrest, run, if_pos hd]
  exact Nat.lt_succ_of_le (length_run_le p s)

theorem length_skip_lt (h : c.sees p = true) : c.skip.rest.length < c.rest.length := by
  obtain ⟨d, s, hrest, -⟩ := exists_cons_of_sees h
  rw [rest_skip hrest, hrest]
  exact Nat.lt_succ_self _

theorem length_skip_le (c : Cursor) : c.skip.rest.length ≤ c.rest.length := by
  simp [skip]

theorem length_readBreak_le (c : Cursor) : c.readBreak.2.rest.length ≤ c.rest.length := by
  unfold readBreak
  split
  · next hrest =>
    rw [hrest]
    exact Nat.le_add_right _ 2
  · next hrest => split <;> simp [hrest]
  · exact Nat.le_refl _

theorem length_readBreak_lt (h : c.sees isBreak = true) :
    c.readBreak.2.rest.length < c.rest.length := by
  obtain ⟨d, s, hrest, hd⟩ := exists_cons_of_sees h
  unfold readBreak
  split
  · next hcrlf =>
    rw [hcrlf]
    exact Nat.lt_add_of_pos_right (Nat.zero_lt_two)
  · next hrest' =>
    obtain ⟨rfl, rfl⟩ := List.cons.inj (hrest.symm.trans hrest')
    simp [hd, hrest]
  · next hnil => simp [hrest] at hnil

theorem length_skipComment_le (c : Cursor) : c.skipComment.rest.length ≤ c.rest.length := by
  unfold skipComment
  split
  · exact length_takeRun_le c _
  · exact Nat.le_refl _

/-- What is preserved from any shorter rest holds, once there are as many steps as characters. -/
theorem step_induction {P : Nat → Nat → Cursor → Prop}
    (hend : ∀ n m c, c.rest = [] → P n m c)
    (hstep : ∀ n m c, (∀ d : Cursor, d.rest.length < c.rest.length → P n m d) → P (n + 1) (m + 1) c)
    {n m : Nat} {c : Cursor} (hn : c.rest.length ≤ n) (hm : c.rest.length ≤ m) : P n m c := by
  induction n generalizing m c with
  | zero => exact hend 0 m c (List.eq_nil_of_length_eq_zero (Nat.le_zero.mp hn))
  | succ n ih =>
    cases m with
    | zero => exact hend _ 0 c (List.eq_nil_of_length_eq_zero (Nat.le_zero.mp hm))
    | succ m => exact hstep n m c fun d hd => ih (by omega) (by omega)

end WorkflowRecipes.Yaml.Cursor
