import Mathlib.Data.List.TakeWhile
import WorkflowRecipes.Text.Search

/-!
# Pieces of a text

A text is cut at a separator into pieces, which hold none, and joined from them again.

Results:
1. `pieces_append`: the pieces of two texts with a separator between them.
2. `pieces_join`, `join_pieces`: pieces that are joined are cut into the same pieces, and the pieces
   of a text are joined to the text.
3. `splitOnce_append`, `append_inj_of_not_mem`: a text is cut at its first separator, and in one way.
-/

namespace WorkflowRecipes

namespace Text

theorem pieces_ne_nil (sep : Char) (s : List Char) : pieces sep s ≠ [] := by
  cases s with
  | nil => simp [pieces]
  | cons c s =>
    rw [pieces]
    split
    · simp
    · split <;> simp

/-- A separator cuts the text before it from the text after it. -/
theorem pieces_append (sep : Char) (a b : List Char) :
    pieces sep (a ++ sep :: b) = pieces sep a ++ pieces sep b := by
  induction a with
  | nil => simp [pieces]
  | cons c a ih =>
    rw [List.cons_append, pieces, pieces, ih]
    by_cases hc : c = sep
    · simp [hc]
    · rw [if_neg hc, if_neg hc]
      cases hp : pieces sep a with
      | nil => exact absurd hp (pieces_ne_nil sep a)
      | cons first rest => rfl

theorem pieces_of_not_mem {sep : Char} {s : List Char} (h : sep ∉ s) : pieces sep s = [s] := by
  induction s with
  | nil => rfl
  | cons c s ih =>
    rw [List.mem_cons, not_or] at h
    rw [pieces, if_neg (Ne.symm h.1), ih h.2]

/-- No piece holds the separator. -/
theorem not_mem_of_mem_pieces {sep : Char} {s piece : List Char} (h : piece ∈ pieces sep s) :
    sep ∉ piece := by
  induction s generalizing piece with
  | nil =>
    rw [pieces, List.mem_singleton] at h
    rw [h]
    exact List.not_mem_nil
  | cons c s ih =>
    rw [pieces] at h
    split at h
    · rcases List.mem_cons.mp h with rfl | h
      · exact List.not_mem_nil
      · exact ih h
    · next hc =>
      cases hp : pieces sep s with
      | nil => exact absurd hp (pieces_ne_nil sep s)
      | cons first rest =>
        simp only [hp] at h
        rcases List.mem_cons.mp h with rfl | h
        · rw [List.mem_cons, not_or]
          exact ⟨Ne.symm hc, ih (hp ▸ List.mem_cons_self)⟩
        · exact ih (hp ▸ List.mem_cons_of_mem _ h)

theorem pieces_join {sep : Char} {texts : List (List Char)} (hne : texts ≠ [])
    (h : ∀ text ∈ texts, sep ∉ text) : pieces sep (join [sep] texts) = texts := by
  induction texts with
  | nil => exact absurd rfl hne
  | cons text rest ih =>
    have htext := h text List.mem_cons_self
    cases rest with
    | nil => exact pieces_of_not_mem htext
    | cons next rest =>
      have hrest := ih (List.cons_ne_nil _ _) fun t ht => h t (List.mem_cons_of_mem _ ht)
      rw [join, List.append_assoc, List.singleton_append, pieces_append, pieces_of_not_mem htext,
        hrest]
      rfl

/-- The pieces of a text are joined to the text again. -/
theorem join_pieces (sep : Char) (s : List Char) : join [sep] (pieces sep s) = s := by
  induction s with
  | nil => rfl
  | cons c s ih =>
    cases hp : pieces sep s with
    | nil => exact absurd hp (pieces_ne_nil sep s)
    | cons first rest =>
      rw [hp] at ih
      rw [pieces, hp]
      by_cases hc : c = sep
      · rw [if_pos hc, join, ih, hc]
        rfl
      · rw [if_neg hc, ← ih]
        cases rest <;> rfl

theorem splitOnce_append {sep : Char} {before : List Char} (h : sep ∉ before) (after : List Char) :
    splitOnce sep (before ++ sep :: after) = some (before, after) := by
  induction before with
  | nil => simp [splitOnce]
  | cons c before ih =>
    rw [List.mem_cons, not_or] at h
    rw [List.cons_append, splitOnce, if_neg (Ne.symm h.1), ih h.2]
    rfl

/-- A text behind that has no separator stays with the second part. -/
theorem splitOnce_append_of_not_mem {sep : Char} {after : List Char} (h : sep ∉ after)
    (s : List Char) : splitOnce sep (s ++ after) =
      (splitOnce sep s).map fun part => (part.1, part.2 ++ after) := by
  induction s with
  | nil =>
    rw [List.nil_append, splitOnce, Option.map_none]
    induction after with
    | nil => rfl
    | cons c after ih =>
      rw [List.mem_cons, not_or] at h
      rw [splitOnce, if_neg (Ne.symm h.1), ih h.2]
      rfl
  | cons c s ih =>
    rw [List.cons_append, splitOnce, splitOnce]
    split
    · rfl
    · rw [ih, Option.map_map, Option.map_map]
      rfl

theorem eq_of_splitOnce {sep : Char} {s before after : List Char}
    (h : splitOnce sep s = some (before, after)) : s = before ++ sep :: after := by
  induction s generalizing before with
  | nil => cases h
  | cons c s ih =>
    rw [splitOnce] at h
    split at h
    · next hc =>
      cases h
      rw [hc]
      rfl
    · obtain ⟨⟨before, after⟩, hsplit, heq⟩ := Option.map_eq_some_iff.mp h
      cases heq
      exact congrArg (c :: ·) (ih hsplit)

/-- What stands before the first separator is the longest start of the text without one. -/
theorem takeWhile_eq_and_drop_eq_iff {sep : Char} {s before after : List Char} :
    s.takeWhile (· != sep) = before ∧ s.drop before.length = sep :: after ↔
      s = before ++ sep :: after ∧ sep ∉ before := by
  constructor
  · rintro ⟨rfl, hdrop⟩
    refine ⟨?_, fun hmem => ?_⟩
    · rw [← hdrop]
      exact (List.prefix_iff_eq_append.mp (List.takeWhile_prefix _)).symm
    · simpa using List.mem_takeWhile_imp hmem
  · rintro ⟨rfl, hsep⟩
    refine ⟨?_, List.drop_left⟩
    have hbefore : ∀ c ∈ before, (c != sep) = true := by
      intro c hc
      rw [bne_iff_ne]
      rintro rfl
      exact hsep hc
    rw [List.takeWhile_append_of_pos hbefore]
    simp

/-- A text has one way to be cut at its first separator. -/
theorem append_inj_of_not_mem {sep : Char} {before before' after after' : List Char}
    (h : sep ∉ before) (h' : sep ∉ before')
    (heq : before ++ sep :: after = before' ++ sep :: after') : before = before' ∧ after = after' := by
  have hcut := splitOnce_append h after
  rw [heq, splitOnce_append h' after', Option.some.injEq, Prod.mk.injEq] at hcut
  exact ⟨hcut.1.symm, hcut.2.symm⟩

end Text

end WorkflowRecipes
