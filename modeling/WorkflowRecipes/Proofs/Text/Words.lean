import Mathlib.Data.List.DropRight
import Mathlib.Data.List.TakeWhile
import WorkflowRecipes.Text.Blank
import WorkflowRecipes.Text.Search

/-!
# Words and the blanks around them

Results:
1. `words_join`: words with single blanks between them are read back.
2. `trim_of_ends`, `trim_trim`, `trim_join`: trimming keeps a text that has no blanks at its ends,
   such as one that was trimmed before, or words with single blanks between them.
-/

namespace WorkflowRecipes.Text

variable {c : Char} {s word : List Char}

/-! ## Words -/

/-- Characters that are not blank, at least one. -/
def IsWord (text : List Char) : Prop := text ≠ [] ∧ ∀ c ∈ text, isBlank c = false

theorem isWord_iff {text : List Char} :
    IsWord text ↔ (!text.isEmpty && text.all fun c => !isBlank c) = true := by
  simp [IsWord]

instance (text : List Char) : Decidable (IsWord text) := decidable_of_iff _ isWord_iff.symm

theorem words_cons_of_blank (h : isBlank c = true) (s : List Char) : words (c :: s) = words s := by
  rw [words.eq_def]
  exact if_pos h

/-- A character goes with the word behind it. -/
theorem words_cons_cons {d : Char} {first : List Char} {rest : List (List Char)}
    (hc : isBlank c = false) (hd : isBlank d = false) (h : words (d :: s) = first :: rest) :
    words (c :: d :: s) = (c :: first) :: rest := by
  -- An equation for each of the nested cases would take long to derive.
  rw [words.eq_def]
  dsimp only
  rw [hc, if_neg Bool.false_ne_true, hd, if_neg Bool.false_ne_true, h]

theorem words_of_isWord (h : IsWord word) : words word = [word] := by
  obtain ⟨hne, hword⟩ := h
  induction word with
  | nil => exact absurd rfl hne
  | cons c rest ih =>
    obtain ⟨hc, hrest⟩ := List.forall_mem_cons.mp hword
    cases rest with
    | nil =>
      rw [words.eq_def]
      dsimp only
      rw [hc]
      rfl
    | cons d rest =>
      exact words_cons_cons hc (hrest d List.mem_cons_self) (ih (List.cons_ne_nil d rest) hrest)

/-- A word ends at a blank. -/
theorem words_append (h : IsWord word) (hc : isBlank c = true) (s : List Char) :
    words (word ++ c :: s) = word :: words s := by
  obtain ⟨hne, hword⟩ := h
  induction word with
  | nil => exact absurd rfl hne
  | cons b rest ih =>
    obtain ⟨hb, hrest⟩ := List.forall_mem_cons.mp hword
    cases rest with
    | nil =>
      show words (b :: c :: s) = [b] :: words s
      rw [words.eq_def]
      dsimp only
      rw [hb, if_neg Bool.false_ne_true, hc, if_pos rfl, words_cons_of_blank hc]
    | cons d rest =>
      exact words_cons_cons hb (hrest d List.mem_cons_self) (ih (List.cons_ne_nil d rest) hrest)

/-- Words with single blanks between them are read back. -/
theorem words_join : ∀ {texts : List (List Char)}, (∀ text ∈ texts, IsWord text) →
    words (join [' '] texts) = texts
  | [], _ => rfl
  | [one], h => words_of_isWord (h one List.mem_cons_self)
  | one :: next :: rest, h => by
    obtain ⟨hone, hrest⟩ := List.forall_mem_cons.mp h
    rw [join, List.append_assoc, List.singleton_append, words_append hone rfl, words_join hrest]

/-! ## Trimming -/

theorem trim_eq_rdropWhile (s : List Char) : trim s = (s.dropWhile isBlank).rdropWhile isBlank :=
  rfl

/-- A text without blanks at its ends is kept. -/
theorem trim_of_ends (hfirst : ∀ c ∈ s.head?, isBlank c = false)
    (hlast : ∀ c ∈ s.getLast?, isBlank c = false) : trim s = s := by
  have hstart : s.dropWhile isBlank = s := by
    refine List.dropWhile_eq_self_iff.mpr fun hpos => ?_
    rw [hfirst _ (by rw [List.head?_eq_getElem?, List.getElem?_eq_getElem hpos]; rfl)]
    exact Bool.false_ne_true
  rw [trim_eq_rdropWhile, hstart]
  refine List.rdropWhile_eq_self_iff.mpr fun hne => ?_
  rw [hlast _ (List.getLast?_eq_some_getLast hne)]
  exact Bool.false_ne_true

theorem trim_trim (s : List Char) : trim (trim s) = trim s := by
  refine trim_of_ends (fun c hc => ?_) fun c hc => ?_
  · -- What is left starts as it did before its end was trimmed.
    have hstart : trim s <+: s.dropWhile isBlank := List.rdropWhile_prefix _ _
    obtain ⟨rest, hrest⟩ := hstart
    have hhead : (s.dropWhile isBlank).head? = some c := by
      rw [← hrest, List.head?_append, hc]
      rfl
    have hnot := List.head?_dropWhile_not isBlank s
    rwa [hhead] at hnot
  · obtain ⟨hne, rfl⟩ := List.mem_getLast?_eq_getLast hc
    rw [← Bool.not_eq_true]
    exact List.rdropWhile_last_not _ _ hne

theorem join_ne_nil {one : List Char} (h : IsWord one) (rest : List (List Char)) :
    join [' '] (one :: rest) ≠ [] := by
  cases rest with
  | nil => exact h.1
  | cons next rest => simp [join]

/-- Words with single blanks between them have no blanks at their ends. -/
theorem trim_join {texts : List (List Char)} (h : ∀ text ∈ texts, IsWord text) :
    trim (join [' '] texts) = join [' '] texts := by
  refine trim_of_ends (fun c hc => ?_) fun c hc => ?_
  · cases texts with
    | nil => cases hc
    | cons one rest =>
      obtain ⟨hne, hone⟩ := h one List.mem_cons_self
      refine hone c (List.mem_of_mem_head? ?_)
      cases rest with
      | nil => exact hc
      | cons next rest =>
        rwa [join, List.append_assoc, List.head?_append_of_ne_nil _ hne] at hc
  · induction texts with
    | nil => cases hc
    | cons one rest ih =>
      obtain ⟨hone, hrest⟩ := List.forall_mem_cons.mp h
      cases rest with
      | nil => exact hone.2 c (List.mem_of_mem_getLast? hc)
      | cons next rest =>
        rw [join, List.getLast?_append_of_ne_nil _
          (join_ne_nil (hrest next List.mem_cons_self) rest)] at hc
        exact ih hrest hc

end WorkflowRecipes.Text
