import Mathlib.Data.List.Infix
import Mathlib.Data.List.TakeWhile
import WorkflowRecipes.Text.Blank
import WorkflowRecipes.Text.Search

/-!
# Occurrences

A text occurs in another if it is a stretch of it. Blanks at the ends of the other text do not
matter to a text that has none at its own ends.

Results:
1. `occursIn_iff`, `holds_iff`, `dropPrefix?_iff`: what searching finds.
2. `exists_splitAt?`: the first occurrence in a text has all behind it that any other has.
3. `trimStart_append`, `trim_around`: blanks around a text are all that trimming takes away.
4. `infix_trim_iff`: a text without blanks at its ends occurs in a text if and only if it occurs in
   the trimmed text.
-/

namespace WorkflowRecipes

namespace Text

variable {p s : List Char}

/-! ## Search -/

theorem startsWith_iff : startsWith p s = true ↔ p <+: s := by
  rw [startsWith, Option.isSome_iff_exists]
  exact exists_congr fun rest => dropPrefix?_eq_some_iff.trans eq_comm

theorem occursIn_iff : occursIn p s = true ↔ p <:+: s := by
  unfold occursIn
  induction s with
  | nil => rw [splitAt?, List.infix_nil]; cases p <;> simp
  | cons c s ih =>
    rw [splitAt?, List.infix_cons_iff, ← ih, ← startsWith_iff, startsWith]
    cases dropPrefix? p (c :: s) <;> simp

theorem eq_append_of_splitAt? {before after : List Char} (h : splitAt? p s = some (before, after)) :
    s = before ++ p ++ after := by
  induction s generalizing before with
  | nil =>
    rw [splitAt?] at h
    split at h
    · next hp =>
      cases h
      rw [List.isEmpty_iff.mp hp]
      rfl
    · cases h
  | cons c s ih =>
    rw [splitAt?] at h
    split at h
    · next rest hrest =>
      cases h
      exact dropPrefix?_eq_some_iff.mp hrest
    · obtain ⟨⟨before, after⟩, hsplit, heq⟩ := Option.map_eq_some_iff.mp h
      cases heq
      exact congrArg (c :: ·) (ih hsplit)

/-- Behind the first occurrence stands all that stands behind any other. -/
theorem exists_splitAt? (p before after : List Char) : ∃ first between,
    splitAt? p (before ++ p ++ after) = some (first, between ++ after) := by
  induction before with
  | nil =>
    refine ⟨[], [], ?_⟩
    cases p with
    | nil => cases after <;> rfl
    | cons c p =>
      rw [List.nil_append, List.cons_append, splitAt?, ← List.cons_append,
        dropPrefix?_eq_some_iff.mpr rfl]
      rfl
  | cons c before ih =>
    rw [List.cons_append, List.cons_append, splitAt?]
    split
    · next rest hrest =>
      have hsuffix : p ++ after <:+ p ++ rest := by
        rw [← dropPrefix?_eq_some_iff.mp hrest]
        exact ⟨c :: before, by rw [List.cons_append, List.append_assoc]⟩
      have hlength := hsuffix.length_le
      simp only [List.length_append, Nat.add_le_add_iff_left] at hlength
      have hlonger : after <:+ rest :=
        List.suffix_of_suffix_length_le ((List.suffix_append p after).trans hsuffix)
          (List.suffix_append p rest) hlength
      obtain ⟨between, rfl⟩ := hlonger
      exact ⟨[], between, rfl⟩
    · obtain ⟨first, between, hsplit⟩ := ih
      exact ⟨c :: first, between, by rw [hsplit]; rfl⟩

/-! ## Trimming -/

/-- Blanks before a character that is none are trimmed, and nothing else. -/
theorem trimStart_append {blanks : List Char} (h : ∀ c ∈ blanks, isBlank c = true)
    (hfirst : ∃ c ∈ s.head?, isBlank c = false) : trimStart (blanks ++ s) = s := by
  obtain ⟨c, hc, hblank⟩ := hfirst
  cases s with
  | nil => cases hc
  | cons first s =>
    cases hc
    rw [trimStart, List.dropWhile_append_of_pos h, List.dropWhile_cons_of_neg (by simp [hblank])]

theorem exists_trimStart (s : List Char) :
    ∃ blanks : List Char, (∀ c ∈ blanks, isBlank c = true) ∧ s = blanks ++ trimStart s :=
  ⟨s.takeWhile isBlank, fun _ hc => List.mem_takeWhile_imp hc,
    List.takeWhile_append_dropWhile.symm⟩

/-- Blanks around a text are trimmed, and nothing else. -/
theorem trim_around {left right : List Char} (hleft : ∀ c ∈ left, isBlank c = true)
    (hright : ∀ c ∈ right, isBlank c = true) (hfirst : ∃ c ∈ s.head?, isBlank c = false)
    (hlast : ∃ c ∈ s.getLast?, isBlank c = false) : trim (left ++ (s ++ right)) = s := by
  have hstart : ∃ c ∈ (s ++ right).head?, isBlank c = false := by
    obtain ⟨c, hc, hblank⟩ := hfirst
    exact ⟨c, by rw [List.head?_append, Option.mem_def.mp hc]; rfl, hblank⟩
  have hend : trimStart (right.reverse ++ s.reverse) = s.reverse :=
    trimStart_append (fun c hc => hright c (List.mem_reverse.mp hc)) (by rwa [List.head?_reverse])
  rw [trimStart] at hend
  rw [trim, trimStart_append hleft hstart, trimEnd, List.reverse_append, hend, List.reverse_reverse]

theorem infix_dropWhile_iff {blank : Char → Bool} (hhead : ∃ c ∈ p.head?, blank c = false) :
    p <:+: s.dropWhile blank ↔ p <:+: s := by
  obtain ⟨c, hc, hblank⟩ := hhead
  induction s with
  | nil => rfl
  | cons d s ih =>
    rw [List.dropWhile_cons]
    split
    · next hd =>
      rw [ih, List.infix_cons_iff, or_iff_right]
      rintro ⟨rest, hrest⟩
      cases p with
      | nil => cases hc
      | cons first p =>
        cases hc
        rw [List.cons_append, List.cons.injEq] at hrest
        rw [hrest.1, hd] at hblank
        cases hblank
    · rfl

theorem infix_trim_iff (hhead : ∃ c ∈ p.head?, isBlank c = false)
    (hlast : ∃ c ∈ p.getLast?, isBlank c = false) : p <:+: trim s ↔ p <:+: s := by
  rw [trim, trimEnd, trimStart, ← List.reverse_infix, List.reverse_reverse,
    infix_dropWhile_iff (by rwa [List.head?_reverse]), List.reverse_infix, infix_dropWhile_iff hhead]

end Text

theorem holds_iff {s p : String} : holds s p = true ↔ p.toList <:+: s.toList := Text.occursIn_iff

theorem dropPrefix?_iff {s p rest : String} : dropPrefix? s p = some rest ↔ s = p ++ rest := by
  rw [dropPrefix?, Option.map_eq_some_iff, ← String.toList_inj, String.toList_append,
    ← Text.dropPrefix?_eq_some_iff]
  constructor
  · rintro ⟨tail, htail, rfl⟩
    rw [htail, String.toList_ofList]
  · exact fun h => ⟨rest.toList, h, String.ofList_toList⟩

end WorkflowRecipes
