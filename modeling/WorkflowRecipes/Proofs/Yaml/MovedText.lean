import WorkflowRecipes.Proofs.Yaml.Cursor
import WorkflowRecipes.Yaml.ScalarText

/-!
# Scalars at another place

What a scalar says does not depend on where in a stream it stands. A reader that starts at the same
text further on ends there with the same result, and how many steps it may take makes no difference
once there are as many as characters.

Results:
1. `plainScalar?_moved`, `quotedScalar?_moved`, `blockScalar?_moved`: the three kinds of scalars.
-/

namespace WorkflowRecipes.Yaml

/-! ## Results that agree -/

/-- The same text, so many characters and lines further on. -/
def Cursor.moved (c : Cursor) (i l : Nat) : Cursor :=
  ⟨c.rest, c.index + i, c.line + l, c.column⟩

/-- The second cursor is the first one moved, with at most `bound` characters behind it. -/
structure Cursor.Agree (i l bound : Nat) (c d : Cursor) : Prop where
  moved : d = c.moved i l
  length_le : c.rest.length ≤ bound

/-- Pairs with the same first part and related second parts. -/
def Beside {α β γ : Type} (R : β → γ → Prop) (p : α × β) (q : α × γ) : Prop :=
  p.1 = q.1 ∧ R p.2 q.2

section

variable {α β γ δ : Type} {R : α → β → Prop} {S : γ → δ → Prop}

theorem rel_bind {x : Option α} {y : Option β} (h : Option.Rel R x y) {f : α → Option γ}
    {g : β → Option δ} (hfg : ∀ a b, x = some a → R a b → Option.Rel S (f a) (g b)) :
    Option.Rel S (x.bind f) (y.bind g) := by
  cases h with
  | none => exact .none
  | some hab => exact hfg _ _ rfl hab

theorem rel_eq {x y : Option α} : Option.Rel Eq x y ↔ x = y := by
  constructor
  · rintro (rfl | -) <;> rfl
  · rintro rfl
    cases x with
    | none => exact .none
    | some a => exact .some rfl

theorem rel_ite {p : Prop} [Decidable p] {x x' : Option α} {y y' : Option β}
    (ht : p → Option.Rel R x y) (hf : ¬ p → Option.Rel R x' y') :
    Option.Rel R (if p then x else x') (if p then y else y') := by
  by_cases h : p
  · rw [if_pos h, if_pos h]
    exact ht h
  · rw [if_neg h, if_neg h]
    exact hf h

theorem rel_imp {R' : α → β → Prop} {x : Option α} {y : Option β} (h : Option.Rel R x y)
    (himp : ∀ a b, R a b → R' a b) : Option.Rel R' x y := by
  cases h with
  | none => exact .none
  | some hab => exact .some (himp _ _ hab)

theorem rel_map {x : Option α} {y : Option β} (h : Option.Rel R x y) {f : α → γ} {g : β → δ}
    (hfg : ∀ a b, x = some a → R a b → S (f a) (g b)) :
    Option.Rel S (x.map f) (y.map g) := by
  cases h with
  | none => exact .none
  | some hab => exact .some (hfg _ _ rfl hab)

theorem exists_of_rel {x : Option α} {y : Option β} (h : Option.Rel R x y) {a : α}
    (hx : x = some a) : ∃ b, y = some b ∧ R a b := by
  subst hx
  cases h with
  | some hab => exact ⟨_, rfl, hab⟩

theorem rel_bind_same {x : Option α} {f : α → Option γ} {g : α → Option δ}
    (hfg : ∀ a, x = some a → Option.Rel S (f a) (g a)) : Option.Rel S (x.bind f) (x.bind g) := by
  cases x with
  | none => exact .none
  | some a => exact hfg a rfl

end

namespace Cursor

variable {i l : Nat}

theorem Agree.mono {bound bound' : Nat} {c d : Cursor} (h : Agree i l bound c d)
    (hle : bound ≤ bound') : Agree i l bound' c d :=
  ⟨h.moved, Nat.le_trans h.length_le hle⟩

@[simp] theorem rest_moved (c : Cursor) : (c.moved i l).rest = c.rest := rfl

@[simp] theorem column_moved (c : Cursor) : (c.moved i l).column = c.column := rfl

@[simp] theorem sees_moved (c : Cursor) (p : Char → Bool) :
    (c.moved i l).sees p = c.sees p := rfl

@[simp] theorem isAt_moved (c : Cursor) (d : Char) : (c.moved i l).isAt d = c.isAt d := rfl

@[simp] theorem past_moved (c : Cursor) (n : Nat) (rest : List Char) :
    (c.moved i l).past n rest = (c.past n rest).moved i l := by
  simp [past, moved, Nat.add_right_comm]

@[simp] theorem skip_moved (c : Cursor) :
    (c.moved i l).skip = c.skip.moved i l := past_moved c 1 _

@[simp] theorem takeRun_moved (c : Cursor) (p : Char → Bool) :
    (c.moved i l).takeRun p =
      ((c.takeRun p).1, (c.takeRun p).2.moved i l) := by
  simp [takeRun]

@[simp] theorem skipRun_moved (c : Cursor) (p : Char → Bool) :
    (c.moved i l).skipRun p = (c.skipRun p).moved i l := by
  simp [skipRun]

@[simp] theorem readBreak_moved (c : Cursor) :
    (c.moved i l).readBreak = (c.readBreak.1, c.readBreak.2.moved i l) := by
  obtain ⟨rest, index, line, column⟩ := c
  unfold readBreak moved
  dsimp only
  split
  · simp [Nat.add_right_comm]
  · split <;> simp [Nat.add_right_comm]
  · rfl

@[simp] theorem skipComment_moved (c : Cursor) :
    (c.moved i l).skipComment = c.skipComment.moved i l := by
  unfold skipComment
  split <;> simp_all

theorem Agree.rfl (c : Cursor) : Agree i l c.rest.length c (c.moved i l) :=
  ⟨.refl _, Nat.le_refl _⟩

end Cursor

open Cursor

section

variable {i l : Nat}

/-! ## Folded lines -/

theorem furtherBreaks?_nil {limit n : Nat} {c : Cursor} (h : c.rest = []) :
    furtherBreaks? limit n c = some ([], c) := by
  cases n with
  | zero => rfl
  | succ n => simp [furtherBreaks?, isAt_nil h, sees_nil h]

theorem furtherBreaks?_moved {limit n m : Nat} {c : Cursor} (hn : c.rest.length ≤ n)
    (hm : c.rest.length ≤ m) :
    Option.Rel (Beside (Agree i l c.rest.length)) (furtherBreaks? limit n c)
      (furtherBreaks? limit m (c.moved i l)) := by
  refine step_induction (P := fun n m c => Option.Rel (Beside (Agree i l c.rest.length))
    (furtherBreaks? limit n c) (furtherBreaks? limit m (c.moved i l))) ?_ ?_ hn hm
  · intro n m c hrest
    rw [furtherBreaks?_nil hrest, furtherBreaks?_nil (c := c.moved i l) hrest]
    exact .some ⟨rfl, .rfl c⟩
  · intro n m c ih
    rw [furtherBreaks?, furtherBreaks?]
    simp only [isAt_moved, sees_moved, column_moved, skip_moved, readBreak_moved]
    refine rel_ite (fun _ => .none) fun _ => rel_ite (fun hgap => ?_) fun _ =>
      rel_ite (fun hbreak => ?_) fun _ => .some ⟨rfl, .rfl c⟩
    · have hlt := length_skip_lt hgap
      exact rel_imp (ih _ hlt) fun _ _ h => ⟨h.1, h.2.mono (by omega)⟩
    · have hlt := length_readBreak_lt hbreak
      refine rel_map (ih _ hlt) ?_
      rintro ⟨more, d⟩ ⟨_, d'⟩ - ⟨rfl, h⟩
      exact ⟨rfl, h.mono (by omega)⟩

theorem foldGap?_moved {limit n m : Nat} {c : Cursor} (hn : c.rest.length ≤ n)
    (hm : c.rest.length ≤ m) :
    Option.Rel (Beside (Beside (Agree i l c.rest.length))) (foldGap? limit n c)
      (foldGap? limit m (c.moved i l)) := by
  have hle := length_takeRun_le c isGap
  unfold foldGap?
  simp only [takeRun_moved, sees_moved, readBreak_moved]
  refine rel_ite (fun _ => ?_) fun _ => .some ⟨rfl, rfl, rfl, hle⟩
  have hbreak := length_readBreak_le (c.takeRun isGap).2
  refine rel_map (furtherBreaks?_moved (by omega) (by omega)) ?_
  rintro ⟨more, d⟩ ⟨_, d'⟩ - ⟨rfl, h⟩
  exact ⟨rfl, rfl, h.mono (by omega)⟩

/-- A gap or a break is left behind. -/
theorem length_foldGap?_lt {limit n : Nat} {c d : Cursor} {text : List Char} {broken : Bool}
    (hn : c.rest.length ≤ n) (h : foldGap? limit n c = some (text, broken, d))
    (hsees : (c.sees fun e => isGap e || isBreak e) = true) : d.rest.length < c.rest.length := by
  have hle := length_takeRun_le c isGap
  unfold foldGap? at h
  dsimp only at h
  split at h
  · next hbreak =>
    have hlt := length_readBreak_lt hbreak
    obtain ⟨⟨more, e⟩, hmore, heq⟩ := Option.map_eq_some_iff.mp h
    cases heq
    obtain ⟨_, -, -, hagree⟩ :=
      exists_of_rel (furtherBreaks?_moved (i := 0) (l := 0) (m := n) (by omega) (by omega)) hmore
    exact Nat.lt_of_le_of_lt hagree.length_le (by omega)
  · next hbreak =>
    cases h
    refine length_takeRun_lt ?_
    obtain ⟨e, s, hrest, he⟩ := exists_cons_of_sees hsees
    rw [sees_cons hrest, ← Bool.not_eq_false]
    intro hgap
    have hnone : (c.takeRun isGap).2 = c := by
      rw [takeRun_of_not_sees (by rw [sees_cons hrest, hgap])]
    rw [hnone, sees_cons hrest] at hbreak
    exact hbreak (by simpa [hgap] using he)

/-! ## Plain scalars -/

theorem length_plainRun?_le {flow : Bool} {s run rest : List Char} {k : Nat}
    (h : plainRun? flow s = some (run, k, rest)) : rest.length ≤ s.length := by
  induction s generalizing run k with
  | nil =>
    cases h
    exact Nat.le_refl 0
  | cons d s ih =>
    rw [plainRun?] at h
    split at h
    · cases h
      exact Nat.le_refl _
    split at h
    · cases h
    split at h
    · cases h
      exact Nat.le_refl _
    · obtain ⟨⟨run', k', rest'⟩, hrun, heq⟩ := Option.map_eq_some_iff.mp h
      cases heq
      exact Nat.le_succ_of_le (ih hrun)

theorem plainLines?_moved {flow : Bool} {indent size size' n m : Nat} {c : Cursor}
    (hsize : c.rest.length ≤ size) (hsize' : c.rest.length ≤ size') (hn : c.rest.length ≤ n)
    (hm : c.rest.length ≤ m) (text gap : List Char) (broken : Bool) :
    Option.Rel (Beside (Beside (Agree i l c.rest.length)))
      (plainLines? flow indent size (n + 1) c text gap broken)
      (plainLines? flow indent size' (m + 1) (c.moved i l) text gap broken) := by
  refine step_induction (P := fun n m c => c.rest.length ≤ size → c.rest.length ≤ size' →
    ∀ text gap broken, Option.Rel (Beside (Beside (Agree i l c.rest.length)))
      (plainLines? flow indent size (n + 1) c text gap broken)
      (plainLines? flow indent size' (m + 1) (c.moved i l) text gap broken))
    ?_ ?_ hn hm hsize hsize' text gap broken
  · intro n m c hrest _ _ text gap broken
    rw [plainLines?, plainLines?]
    simp only [isAt_moved, isAt_nil hrest, rest_moved, hrest, plainRun?, Option.bind_some,
      past_moved, sees_moved, sees_nil (rest_past c 0 []), Bool.false_eq_true, if_false]
    exact .some ⟨rfl, rfl, rfl, by simp⟩
  · intro n m c ih hsize hsize' text gap broken
    rw [plainLines?, plainLines?]
    simp only [isAt_moved, rest_moved, past_moved]
    refine rel_ite (fun _ => .some ⟨rfl, rfl, .rfl c⟩) fun _ => rel_bind_same ?_
    rintro ⟨run, k, rest⟩ hrun
    have hle := length_plainRun?_le hrun
    dsimp only
    rw [sees_moved]
    refine rel_ite (fun hsees => ?_) fun _ => .some ⟨rfl, rfl, rfl, hle⟩
    have hpast : (c.past k rest).rest.length ≤ c.rest.length := hle
    refine rel_bind (foldGap?_moved (by omega) (by omega)) ?_
    rintro ⟨gap', broken', d⟩ ⟨_, _, d'⟩ hfold ⟨rfl, rfl, rfl, hd⟩
    have hlt := length_foldGap?_lt (by omega) hfold hsees
    dsimp only
    rw [column_moved]
    refine rel_ite (fun _ => .some ⟨rfl, rfl, rfl, Nat.le_trans (Nat.le_of_lt hlt) hpast⟩)
      fun _ => ?_
    refine rel_imp (ih d (by omega) (by omega) (by omega) _ _ _) ?_
    exact fun _ _ h => ⟨h.1, h.2.1, h.2.2.mono (by omega)⟩

theorem plainScalar?_moved {flow : Bool} {indent size size' : Nat} {c : Cursor}
    (hsize : c.rest.length ≤ size) (hsize' : c.rest.length ≤ size') :
    Option.Rel (Beside (Beside (Agree i l c.rest.length))) (plainScalar? flow indent size c)
      (plainScalar? flow indent size' (c.moved i l)) :=
  plainLines?_moved hsize hsize' hsize hsize' [] [] false

theorem length_plainRun?_lt {flow : Bool} {d : Char} {s run rest : List Char} {k : Nat}
    (h : plainRun? flow (d :: s) = some (run, k, rest)) (hd : (isGap d || isBreak d) = false)
    (hmark : ((d == ':' && atWordEnd s) || (flow && isFlowDelimiter d)) = false) :
    rest.length < (d :: s).length := by
  rw [plainRun?, if_neg (by simp [hd])] at h
  split at h
  · cases h
  rw [if_neg (by simp [hmark])] at h
  obtain ⟨⟨run', k', rest'⟩, hrun, heq⟩ := Option.map_eq_some_iff.mp h
  cases heq
  exact Nat.lt_succ_of_le (length_plainRun?_le hrun)

/-- A plain scalar leaves something behind where it starts at no mark. -/
theorem length_plainScalar?_lt {flow broken : Bool} {indent : Nat} {c e : Cursor} {d : Char}
    {s text : List Char} (hrest : c.rest = d :: s) (hcomment : d ≠ '#')
    (hmark : ((d == ':' && atWordEnd s) || (flow && isFlowDelimiter d)) = false) {size : Nat}
    (hsize : c.rest.length ≤ size) (h : plainScalar? flow indent size c = some (text, broken, e)) :
    e.rest.length < c.rest.length := by
  have hnot : ¬ c.isAt '#' = true := by simpa [isAt_cons hrest] using hcomment
  rw [plainScalar?, plainLines?, if_neg hnot] at h
  obtain ⟨⟨run, k, rest⟩, hrun, h⟩ := Option.bind_eq_some_iff.mp h
  have hle := length_plainRun?_le hrun
  have hlt : (isGap d || isBreak d) = false → rest.length < c.rest.length := by
    intro hd
    rw [hrest] at hrun ⊢
    exact length_plainRun?_lt hrun hd hmark
  dsimp only at h
  split at h
  · next hsees =>
    obtain ⟨⟨gap, broken', f⟩, hfold, h⟩ := Option.bind_eq_some_iff.mp h
    have hfold := length_foldGap?_lt (Nat.le_trans hle hsize) hfold hsees
    have hf : f.rest.length < c.rest.length := Nat.lt_of_lt_of_le hfold hle
    dsimp only at h
    split at h
    · cases h
      exact hf
    · cases size with
      | zero => omega
      | succ size =>
        have hle := Nat.le_trans (Nat.le_of_lt hf) hsize
        obtain ⟨_, -, -, -, hagree⟩ :=
          exists_of_rel (plainLines?_moved (i := 0) (l := 0) hle hle (by omega) hle _ _ _) h
        exact Nat.lt_of_le_of_lt hagree.length_le hf
  · next hsees =>
    cases h
    refine hlt ?_
    cases hd : isGap d || isBreak d with
    | false => rfl
    | true =>
      rw [hrest, plainRun?, if_pos hd] at hrun
      cases hrun
      exact absurd hd hsees

/-! ## Quoted scalars -/

theorem length_hexDigits?_le {n acc value : Nat} {s rest : List Char}
    (h : hexDigits? n acc s = some (value, rest)) : rest.length ≤ s.length := by
  induction n generalizing acc s with
  | zero =>
    cases h
    exact Nat.le_refl _
  | succ n ih =>
    cases s with
    | nil => cases h
    | cons c s =>
      obtain ⟨d, -, hrest⟩ := Option.bind_eq_some_iff.mp h
      exact Nat.le_succ_of_le (ih hrest)

theorem length_escape?_le {letter c : Char} {k : Nat} {s rest : List Char}
    (h : escape? letter s = some (c, k, rest)) : rest.length ≤ s.length := by
  unfold escape? at h
  split at h
  · cases h
    exact Nat.le_refl _
  · obtain ⟨width, -, h⟩ := Option.bind_eq_some_iff.mp h
    obtain ⟨⟨value, rest'⟩, hdigits, h⟩ := Option.bind_eq_some_iff.mp h
    dsimp only at h
    split at h
    · cases h
      exact length_hexDigits?_le hdigits
    · cases h

theorem quotedRun?_moved {single : Bool} {n m : Nat} {c : Cursor} (hn : c.rest.length ≤ n)
    (hm : c.rest.length ≤ m) (text : List Char) :
    Option.Rel (Beside (Beside (Agree i l c.rest.length))) (quotedRun? single n c text)
      (quotedRun? single m (c.moved i l) text) := by
  refine step_induction (P := fun n m c => ∀ text,
    Option.Rel (Beside (Beside (Agree i l c.rest.length))) (quotedRun? single n c text)
      (quotedRun? single m (c.moved i l) text)) ?_ ?_ hn hm text
  · intro n m c hrest text
    have hnil : ∀ {n : Nat} {c : Cursor}, c.rest = [] →
        quotedRun? single n c text = some (text, false, c) := by
      intro n c hrest
      cases n with
      | zero => rfl
      | succ n => rw [quotedRun?, hrest]
    rw [hnil hrest, hnil (c := c.moved i l) hrest]
    exact .some ⟨rfl, rfl, .rfl c⟩
  · intro n m c ih text
    rw [quotedRun?, quotedRun?, rest_moved]
    cases hrest : c.rest with
    | nil => exact .some ⟨rfl, rfl, rfl, by simp [hrest]⟩
    | cons d s =>
      have hnext : ∀ k rest text, rest.length ≤ s.length →
          Option.Rel (Beside (Beside (Agree i l (d :: s).length)))
            (quotedRun? single n (c.past k rest) text)
            (quotedRun? single m ((c.moved i l).past k rest) text) := by
        intro k rest text hle
        rw [past_moved]
        have hlt : (c.past k rest).rest.length < c.rest.length := by
          rw [hrest]
          exact Nat.lt_succ_of_le hle
        refine rel_imp (ih _ hlt text) fun _ _ h => ⟨h.1, h.2.1, h.2.2.mono ?_⟩
        rw [← hrest]
        exact Nat.le_of_lt hlt
      have hstop : ∀ text : List Char, Option.Rel (Beside (Beside (Agree i l (d :: s).length)))
          (some (text, false, c)) (some (text, false, c.moved i l)) :=
        fun text => .some ⟨rfl, rfl, rfl, by simp [hrest]⟩
      dsimp only
      refine rel_ite (fun _ => hstop text) fun _ => rel_ite (fun _ => ?_) fun _ =>
        rel_ite (fun _ => hstop text) fun _ => rel_ite (fun _ => ?_) fun _ => hnext 1 s _ (by simp)
      · refine rel_ite (fun _ => ?_) fun _ => hnext 1 s _ (by simp)
        split
        · exact hnext 2 _ _ (by simp)
        · exact hstop text
      · cases s with
        | nil => exact .none
        | cons letter rest =>
          refine rel_ite (fun _ => ?_) fun _ => rel_bind_same ?_
          · rw [skip_moved, readBreak_moved, ← hrest]
            exact .some ⟨rfl, rfl, rfl,
              Nat.le_trans (length_readBreak_le c.skip) (length_skip_le c)⟩
          · rintro ⟨e, k, rest'⟩ hescape
            have hle := length_escape?_le hescape
            exact hnext _ _ _ (by simp; omega)

/-- A run in quotes leaves something behind if it ends with an escaped break; else it ends where the
text does, at a gap or break, or at a quote. -/
theorem quotedRun?_stops {single escaped : Bool} {n : Nat} {c d : Cursor} {text text' : List Char}
    (hn : c.rest.length ≤ n) (h : quotedRun? single n c text = some (text', escaped, d)) :
    (escaped = true → d.rest.length < c.rest.length) ∧
      (escaped = false → d.rest = [] ∨ (d.sees fun e => isGap e || isBreak e) = true ∨
        d.isAt (if single then '\'' else '"') = true) := by
  induction n generalizing c text with
  | zero =>
    cases h
    exact ⟨nofun, fun _ => .inl (List.eq_nil_of_length_eq_zero (Nat.le_zero.mp hn))⟩
  | succ n ih =>
    rw [quotedRun?] at h
    cases hrest : c.rest with
    | nil =>
      rw [hrest] at h
      cases h
      exact ⟨nofun, fun _ => .inl hrest⟩
    | cons e s =>
      have hnext : ∀ {k : Nat} {rest text : List Char}, rest.length ≤ s.length →
          quotedRun? single n (c.past k rest) text = some (text', escaped, d) →
            (escaped = true → d.rest.length < (e :: s).length) ∧
              (escaped = false → d.rest = [] ∨ (d.sees fun e => isGap e || isBreak e) = true ∨
                d.isAt (if single then '\'' else '"') = true) := by
        intro k rest text hle h
        rw [hrest, List.length_cons] at hn
        obtain ⟨hlt, hstop⟩ := ih (c := c.past k rest) (Nat.le_trans hle (by omega)) h
        exact ⟨fun he => Nat.lt_of_lt_of_le (hlt he) (Nat.le_succ_of_le hle), hstop⟩
      simp only [hrest] at h
      split at h
      · next hgap =>
        cases h
        exact ⟨nofun, fun _ => .inr (.inl ((sees_cons hrest _).trans hgap))⟩
      split at h
      · next hsingle =>
        split at h
        · next hquote =>
          split at h
          · exact hnext (by simp) h
          · cases h
            exact ⟨nofun, fun _ => .inr (.inr (by simpa [isAt_cons hrest, hsingle] using hquote))⟩
        · exact hnext (Nat.le_refl _) h
      split at h
      · next hsingle hquote =>
        cases h
        exact ⟨nofun, fun _ => .inr (.inr (by simpa [isAt_cons hrest, hsingle] using hquote))⟩
      split at h
      · split at h
        · cases h
        · split at h
          · cases h
            refine ⟨fun _ => Nat.lt_of_le_of_lt (length_readBreak_le c.skip) ?_, nofun⟩
            simp [rest_skip hrest]
          · obtain ⟨⟨f, k, rest⟩, hescape, h⟩ := Option.bind_eq_some_iff.mp h
            exact hnext (Nat.le_succ_of_le (length_escape?_le hescape)) h
      · exact hnext (Nat.le_refl _) h

theorem quotedLines?_moved {single : Bool} {size size' n m : Nat} {c : Cursor}
    (hsize : c.rest.length ≤ size) (hsize' : c.rest.length ≤ size') (hn : c.rest.length ≤ n)
    (hm : c.rest.length ≤ m) (text : List Char) :
    Option.Rel (Beside (Agree i l c.rest.length)) (quotedLines? single size (n + 1) c text)
      (quotedLines? single size' (m + 1) (c.moved i l) text) := by
  refine step_induction (P := fun n m c => c.rest.length ≤ size → c.rest.length ≤ size' → ∀ text,
    Option.Rel (Beside (Agree i l c.rest.length)) (quotedLines? single size (n + 1) c text)
      (quotedLines? single size' (m + 1) (c.moved i l) text)) ?_ ?_ hn hm hsize hsize' text
  · intro n m c hrest _ _ text
    simp only [quotedLines?, rest_moved, hrest, List.isEmpty_nil, if_true]
    exact .none
  · intro n m c ih hsize hsize' text
    rw [quotedLines?, quotedLines?, rest_moved]
    refine rel_ite (fun _ => .none) fun hempty => rel_bind (quotedRun?_moved hsize hsize' text) ?_
    have hne : 0 < c.rest.length := by
      rw [List.length_pos_iff]
      simpa using hempty
    rintro ⟨text', escaped, d⟩ ⟨_, _, d'⟩ hrun ⟨rfl, rfl, rfl, hd⟩
    obtain ⟨hskipped, hstops⟩ := quotedRun?_stops hsize hrun
    dsimp only at hd ⊢
    have hnext : ∀ {e e' : Cursor} (text : List Char), Agree i l d.rest.length e e' →
        e.rest.length < c.rest.length →
          Option.Rel (Beside (Agree i l c.rest.length)) (quotedLines? single size (n + 1) e text)
            (quotedLines? single size' (m + 1) e' text) := by
      rintro e _ text ⟨rfl, -⟩ hlt
      exact rel_imp (ih e hlt (by omega) (by omega) text) fun _ _ h =>
        ⟨h.1, h.2.mono (Nat.le_of_lt hlt)⟩
    rw [isAt_moved]
    refine rel_ite (fun _ => ?_) fun hquote => rel_ite (fun hescaped => ?_) fun hescaped => ?_
    · rw [skip_moved]
      exact .some ⟨rfl, rfl, Nat.le_trans (length_skip_le d) hd⟩
    · refine rel_bind (furtherBreaks?_moved (by omega) (by omega)) ?_
      rintro ⟨gap, e⟩ ⟨_, e'⟩ - ⟨rfl, he⟩
      exact hnext _ he (Nat.lt_of_le_of_lt he.length_le (hskipped hescaped))
    · refine rel_bind (foldGap?_moved (by omega) (by omega)) ?_
      rintro ⟨gap, broken, e⟩ ⟨_, _, e'⟩ hfold ⟨rfl, rfl, he⟩
      refine hnext _ he ?_
      have hle := he.length_le
      rcases hstops ((Bool.not_eq_true _).mp hescaped) with hnil | hsees | hat
      · rw [hnil] at hle
        exact Nat.lt_of_le_of_lt hle hne
      · exact Nat.lt_of_lt_of_le (length_foldGap?_lt (by omega) hfold hsees) hd
      · exact absurd hat hquote

theorem quotedScalar?_moved {size size' : Nat} {c : Cursor} (hsize : c.rest.length ≤ size)
    (hsize' : c.rest.length ≤ size') :
    Option.Rel (Beside (Agree i l c.skip.rest.length)) (quotedScalar? size c)
      (quotedScalar? size' (c.moved i l)) := by
  have hle := length_skip_le c
  rw [quotedScalar?, quotedScalar?, isAt_moved, skip_moved]
  exact quotedLines?_moved (by omega) (by omega) (by omega) (by omega) []

/-! ## Block scalars -/

theorem finishLine?_moved (c : Cursor) :
    Option.Rel (Agree i l c.rest.length) c.finishLine? (c.moved i l).finishLine? := by
  have hgap := length_takeRun_le c isGap
  have hcomment := length_skipComment_le (c.skipRun isGap)
  have hbreak := length_readBreak_le (c.skipRun isGap).skipComment
  unfold finishLine?
  simp only [skipRun_moved, skipComment_moved, rest_moved, readBreak_moved]
  have hle := Nat.le_trans hbreak (Nat.le_trans hcomment hgap)
  exact rel_ite (fun _ => .some ⟨rfl, hle⟩) fun _ => .none

theorem blockHeader?_moved (c : Cursor) :
    Option.Rel (Beside (Beside (Agree i l c.rest.length))) (blockHeader? c)
      (blockHeader? (c.moved i l)) := by
  have hone := length_skip_le c
  have htwo := Nat.le_trans (length_skip_le c.skip) hone
  have hself : Agree i l c.rest.length c (c.moved i l) := .rfl c
  unfold blockHeader?
  generalize c.rest.length = bound at hone htwo hself
  simp only [rest_moved, skip_moved]
  cases c.rest with
  | nil => exact .some ⟨rfl, rfl, hself⟩
  | cons d s =>
    dsimp only
    cases Chomping.ofChar? d with
    | some chomping =>
      cases s with
      | nil => exact .some ⟨rfl, rfl, rfl, hone⟩
      | cons e s =>
        refine rel_ite (fun _ => ?_) fun _ => .some ⟨rfl, rfl, rfl, hone⟩
        cases indentDigit? e with
        | none => exact .none
        | some n => exact .some ⟨rfl, rfl, rfl, htwo⟩
    | none =>
      refine rel_ite (fun _ => ?_) fun _ => .some ⟨rfl, rfl, hself⟩
      cases indentDigit? d with
      | none => exact .none
      | some n =>
        dsimp only [Option.map_some]
        cases s.head?.bind Chomping.ofChar? with
        | some chomping => exact .some ⟨rfl, rfl, rfl, htwo⟩
        | none => exact .some ⟨rfl, rfl, rfl, hone⟩

theorem blockIndentation?_moved {indent : Option Nat} {n m : Nat} {c : Cursor}
    (hn : c.rest.length ≤ n) (hm : c.rest.length ≤ m) (widest : Nat) :
    Option.Rel (Beside (Beside (Agree i l c.rest.length))) (blockIndentation? indent n c widest)
      (blockIndentation? indent m (c.moved i l) widest) := by
  refine step_induction (P := fun n m c => ∀ widest,
    Option.Rel (Beside (Beside (Agree i l c.rest.length))) (blockIndentation? indent n c widest)
      (blockIndentation? indent m (c.moved i l) widest)) ?_ ?_ hn hm widest
  · intro n m c hrest widest
    have hnil : ∀ {n : Nat} {c : Cursor}, c.rest = [] →
        blockIndentation? indent n c widest = some ([], widest, c) := by
      intro n c hrest
      cases n with
      | zero => rfl
      | succ n => simp [blockIndentation?, isAt_nil hrest, sees_nil hrest]
    rw [hnil hrest, hnil (c := c.moved i l) hrest]
    exact .some ⟨rfl, rfl, .rfl c⟩
  · intro n m c ih widest
    rw [blockIndentation?, blockIndentation?]
    simp only [isAt_moved, sees_moved, column_moved, skip_moved, readBreak_moved]
    refine rel_ite (fun hspace => ?_) fun _ => rel_ite (fun _ => .none) fun _ =>
      rel_ite (fun hbreak => ?_) fun _ => .some ⟨rfl, rfl, .rfl c⟩
    · have hlt := length_skip_lt (Bool.and_eq_true_iff.mp hspace).2
      exact rel_imp (ih _ hlt _) fun _ _ h => ⟨h.1, h.2.1, h.2.2.mono (Nat.le_of_lt hlt)⟩
    · have hlt := length_readBreak_lt hbreak
      refine rel_map (ih _ hlt widest) ?_
      rintro ⟨more, widest', d⟩ ⟨_, _, d'⟩ - ⟨rfl, rfl, h⟩
      exact ⟨rfl, rfl, h.mono (Nat.le_of_lt hlt)⟩

/-- A line and its break are left behind. -/
theorem length_line_lt {c : Cursor} (h : ¬ c.rest.isEmpty = true) :
    (c.takeRun fun d => !isBreak d).2.readBreak.2.rest.length < c.rest.length := by
  have hrun := length_takeRun_le c fun d => !isBreak d
  have hbreak := length_readBreak_le (c.takeRun fun d => !isBreak d).2
  cases hrest : c.rest with
  | nil => simp [hrest] at h
  | cons d s =>
    rw [← hrest]
    cases hd : isBreak d with
    | true =>
      rw [takeRun_of_not_sees (by rw [sees_cons hrest, hd]; rfl)]
      exact length_readBreak_lt (by rw [sees_cons hrest, hd])
    | false =>
      have hlt := length_takeRun_lt (c := c) (p := fun d => !isBreak d)
        (by rw [sees_cons hrest, hd]; rfl)
      omega

theorem blockLines?_moved {literal : Bool} {indent size size' n m : Nat} {c : Cursor}
    (hsize : c.rest.length ≤ size) (hsize' : c.rest.length ≤ size') (hn : c.rest.length ≤ n)
    (hm : c.rest.length ≤ m) (text last empty : List Char) (spaced : Bool) :
    Option.Rel (Beside (Beside (Beside (Agree i l c.rest.length))))
      (blockLines? literal indent size (n + 1) c text last empty spaced)
      (blockLines? literal indent size' (m + 1) (c.moved i l) text last empty spaced) := by
  refine step_induction (P := fun n m c => c.rest.length ≤ size → c.rest.length ≤ size' →
    ∀ text last empty spaced, Option.Rel (Beside (Beside (Beside (Agree i l c.rest.length))))
      (blockLines? literal indent size (n + 1) c text last empty spaced)
      (blockLines? literal indent size' (m + 1) (c.moved i l) text last empty spaced))
    ?_ ?_ hn hm hsize hsize' text last empty spaced
  · intro n m c hrest _ _ text last empty spaced
    have hdone : (c.column != indent || c.rest.isEmpty) = true := by simp [hrest]
    rw [blockLines?, blockLines?, column_moved, rest_moved, if_pos hdone, if_pos hdone]
    exact .some ⟨rfl, rfl, rfl, .rfl c⟩
  · intro n m c ih hsize hsize' text last empty spaced
    rw [blockLines?, blockLines?]
    simp only [column_moved, rest_moved, sees_moved, takeRun_moved, readBreak_moved]
    refine rel_ite (fun _ => .some ⟨rfl, rfl, rfl, .rfl c⟩) fun hmore => ?_
    have hlt := length_line_lt (c := c) fun hempty => hmore (by simp [hempty])
    refine rel_bind (blockIndentation?_moved (by omega) (by omega) 0) ?_
    rintro ⟨empty', widest, d⟩ ⟨_, _, d'⟩ - ⟨rfl, rfl, rfl, hd⟩
    have hlt' : d.rest.length < c.rest.length := Nat.lt_of_le_of_lt hd hlt
    refine rel_imp (ih d hlt' (by omega) (by omega) _ _ _ _) ?_
    exact fun _ _ h => ⟨h.1, h.2.1, h.2.2.1, h.2.2.2.mono (Nat.le_of_lt hlt')⟩

theorem blockScalar?_moved {parent : Option Nat} {size size' : Nat} {c : Cursor}
    (hsize : c.rest.length ≤ size) (hsize' : c.rest.length ≤ size') :
    Option.Rel (Beside (Agree i l c.skip.rest.length)) (blockScalar? parent size c)
      (blockScalar? parent size' (c.moved i l)) := by
  have hle := length_skip_le c
  unfold blockScalar?
  rw [isAt_moved, skip_moved]
  refine rel_bind (blockHeader?_moved c.skip) ?_
  rintro ⟨chomping, increment, d⟩ ⟨_, _, d'⟩ - ⟨rfl, rfl, rfl, hd⟩
  refine rel_bind (finishLine?_moved d) ?_
  rintro e e' - ⟨rfl, he⟩
  have heSkip : e.rest.length ≤ c.skip.rest.length := Nat.le_trans he hd
  refine rel_bind (blockIndentation?_moved (by omega) (by omega) 0) ?_
  rintro ⟨empty, widest, f⟩ ⟨_, _, f'⟩ - ⟨rfl, rfl, rfl, hf⟩
  have hfSkip : f.rest.length ≤ c.skip.rest.length := Nat.le_trans hf heSkip
  refine rel_map (blockLines?_moved (by omega) (by omega) (by omega) (by omega) _ _ _ _) ?_
  rintro ⟨text, last, rest, g⟩ ⟨_, _, _, g'⟩ - ⟨rfl, rfl, rfl, hg⟩
  exact ⟨rfl, hg.mono hfSkip⟩

end

end WorkflowRecipes.Yaml
