import Mathlib.Data.List.Chain
import Mathlib.Data.List.TakeWhile
import WorkflowRecipes.Yaml.Segment

/-!
# Texts that fold

Between quotes, lines fold at the breaks that are not escaped: spaces beside a break are dropped, and
the first of several breaks is dropped as well if it reads as a line feed. `readBack` is what is left
of a text then.

Results:
1. `readBack_word`, `readBack_padding`: a text is read run by run.
2. `readBack_eq_self_iff`: the texts that do not change.
-/

namespace WorkflowRecipes.Yaml

/-! ## What is read -/

/-- The characters that fold between quotes: spaces, and breaks that are not escaped there. -/
def isPadding (c : Char) : Bool :=
  c == ' ' || c == '\u0085' || c == '\u2028' || c == '\u2029'

/-- What a break reads as. -/
def breakText (c : Char) : Char := if c == '\u2028' || c == '\u2029' then c else '\n'

/-- What is read of padding. Spaces beside a break are dropped, and so is the first of several breaks
if it reads as a line feed; if it is the only one it reads as a space. -/
def folded (padding : List Char) : List Char :=
  match (padding.filter isBreak).map breakText with
  | [] => padding
  | first :: more =>
    if [first] = ['\n'] then (if more.isEmpty then [' '] else more) else first :: more

/-- What is read of a text behind padding. -/
def readFrom (padding : List Char) : List Char → List Char
  | [] => folded padding
  | c :: s =>
    if isPadding c then readFrom (padding ++ [c]) s else folded padding ++ c :: readFrom [] s

/-- What is read of a text that is written in quotes. -/
def readBack (text : List Char) : List Char := readFrom [] text

theorem readBack_nil : readBack [] = [] := rfl

theorem isPadding_cases {c : Char} (h : isPadding c = true) :
    c = ' ' ∨ c = '\u0085' ∨ c = '\u2028' ∨ c = '\u2029' := by
  simpa [isPadding, or_assoc] using h

/-- Padding is a space or a break. -/
theorem isGap_eq_not_isBreak {c : Char} (h : isPadding c = true) : isGap c = !isBreak c := by
  rcases isPadding_cases h with rfl | rfl | rfl | rfl <;> rfl

/-- A text starts with a run of characters of a kind, and another kind follows. -/
theorem exists_run (p : Char → Bool) (text : List Char) :
    ∃ taken rest, text = taken ++ rest ∧ (∀ c ∈ taken, p c = true) ∧
      (rest.head?.all fun c => !p c) = true := by
  refine ⟨text.takeWhile p, text.dropWhile p, List.takeWhile_append_dropWhile.symm,
    fun c hc => List.mem_takeWhile_imp hc, ?_⟩
  have hstop := List.head?_dropWhile_not p text
  cases hrest : (text.dropWhile p).head? with
  | none => rfl
  | some c =>
    rw [hrest] at hstop
    rw [Option.all_some, hstop, Bool.not_false]

theorem readFrom_padding {padding : List Char} (h : ∀ c ∈ padding, isPadding c = true)
    (before s : List Char) : readFrom before (padding ++ s) = readFrom (before ++ padding) s := by
  induction padding generalizing before with
  | nil => rw [List.nil_append, List.append_nil]
  | cons c padding ih =>
    obtain ⟨hc, hpadding⟩ := List.forall_mem_cons.mp h
    rw [List.cons_append, readFrom, if_pos hc, ih hpadding, List.append_assoc,
      List.singleton_append]

theorem readBack_word {word : List Char} (h : ∀ c ∈ word, isPadding c = false) (s : List Char) :
    readBack (word ++ s) = word ++ readBack s := by
  induction word with
  | nil => rfl
  | cons c word ih =>
    obtain ⟨hc, hword⟩ := List.forall_mem_cons.mp h
    rw [List.cons_append, readBack, readFrom, if_neg (by rw [hc]; decide)]
    exact congrArg (c :: ·) (ih hword)

theorem readFrom_eq {s : List Char} (h : (s.head?.all fun c => !isPadding c) = true)
    (padding : List Char) : readFrom padding s = folded padding ++ readBack s := by
  cases s with
  | nil => exact (List.append_nil _).symm
  | cons c s =>
    have hc : ¬ isPadding c = true := by simpa using h
    rw [readBack, readFrom, readFrom, if_neg hc, if_neg hc]
    rfl

theorem readBack_padding {padding s : List Char} (h : ∀ c ∈ padding, isPadding c = true)
    (hs : (s.head?.all fun c => !isPadding c) = true) :
    readBack (padding ++ s) = folded padding ++ readBack s := by
  rw [readBack, readFrom_padding h, List.nil_append, readFrom_eq hs]

/-! ## Texts that do not change -/

/-- Of two neighbours that fold, both are spaces or both are breaks. -/
def FoldAlike (a b : Char) : Prop :=
  isPadding a = true → isPadding b = true → isBreak a = isBreak b

theorem isChain_of_alike {b : Bool} {padding : List Char} (h : ∀ c ∈ padding, isBreak c = b) :
    padding.IsChain FoldAlike := by
  induction padding with
  | nil => exact .nil
  | cons c rest ih =>
    obtain ⟨hc, hrest⟩ := List.forall_mem_cons.mp h
    refine List.isChain_cons.mpr ⟨fun d hd _ _ => ?_, ih hrest⟩
    rw [hc, hrest d (List.mem_of_mem_head? hd)]

theorem alike_of_isChain {c : Char} {padding : List Char}
    (hall : ∀ d ∈ c :: padding, isPadding d = true) (h : (c :: padding).IsChain FoldAlike) :
    ∀ d ∈ padding, isBreak d = isBreak c := by
  induction padding generalizing c with
  | nil => exact List.forall_mem_nil _
  | cons e rest ih =>
    obtain ⟨hpair, hrest⟩ := List.isChain_cons_cons.mp h
    obtain ⟨hc, hall⟩ := List.forall_mem_cons.mp hall
    have he := hpair hc (hall e List.mem_cons_self)
    refine List.forall_mem_cons.mpr ⟨he.symm, fun d hd => ?_⟩
    rw [ih hall hrest d hd, he]

/-- No break reads as a next line. -/
theorem breakText_ne (c : Char) : breakText c ≠ '\u0085' := by
  unfold breakText
  split
  · next h =>
    rintro rfl
    cases h
  · decide

theorem breakText_of_ne {c : Char} (h : isPadding c = true) (hbreak : isBreak c = true)
    (hne : c ≠ '\u0085') : breakText c = c ∧ c ≠ '\n' := by
  rcases isPadding_cases h with rfl | rfl | rfl | rfl
  · cases hbreak
  · exact absurd rfl hne
  all_goals exact ⟨rfl, by decide⟩

/-- Padding with a break does not become shorter only if it is all breaks, and no next line. -/
theorem of_folded_eq_self {padding more : List Char} {first : Char}
    (hbreaks : (padding.filter isBreak).map breakText = first :: more)
    (h : folded padding = padding) : '\u0085' ∉ padding ∧ ∀ c ∈ padding, isBreak c = true := by
  have hlength := congrArg List.length hbreaks
  have hle := List.length_filter_le isBreak padding
  rw [List.length_map, List.length_cons] at hlength
  rw [folded, hbreaks] at h
  dsimp only at h
  split at h
  · split at h
    · rw [← h] at hbreaks
      cases hbreaks
    · have hmore := congrArg List.length h
      omega
  · have hall : (padding.filter isBreak).length = padding.length := by
      rw [hlength, ← h, List.length_cons]
    refine ⟨fun hmem => ?_, List.length_filter_eq_length_iff.mp hall⟩
    rw [← h, ← hbreaks, List.mem_map] at hmem
    obtain ⟨c, -, hc⟩ := hmem
    exact breakText_ne c hc

/-- Padding stays only if it is all spaces or all breaks, and no break is a next line. -/
theorem folded_eq_self_iff {padding : List Char} (h : ∀ c ∈ padding, isPadding c = true) :
    folded padding = padding ↔ '\u0085' ∉ padding ∧ padding.IsChain FoldAlike := by
  constructor
  · intro heq
    cases hbreaks : (padding.filter isBreak).map breakText with
    | nil =>
      rw [List.map_eq_nil_iff, List.filter_eq_nil_iff] at hbreaks
      exact ⟨fun hmem => hbreaks _ hmem rfl,
        isChain_of_alike fun c hc => Bool.not_eq_true _ ▸ hbreaks c hc⟩
    | cons first more =>
      exact (of_folded_eq_self hbreaks heq).imp_right isChain_of_alike
  · rintro ⟨hnext, hchain⟩
    cases padding with
    | nil => rfl
    | cons c rest =>
      have halike : ∀ d ∈ c :: rest, isBreak d = isBreak c :=
        List.forall_mem_cons.mpr ⟨rfl, alike_of_isChain h hchain⟩
      unfold folded
      cases hbreak : isBreak c with
      | false =>
        have hnone : (c :: rest).filter isBreak = [] :=
          List.filter_eq_nil_iff.mpr fun d hd => by rw [halike d hd, hbreak]; decide
        rw [hnone]
        rfl
      | true =>
        have hkept : ∀ d ∈ c :: rest, breakText d = d ∧ d ≠ '\n' := fun d hd =>
          breakText_of_ne (h d hd) (by rw [halike d hd, hbreak]) fun heq => hnext (heq ▸ hd)
        have hall : ((c :: rest).filter isBreak).map breakText = c :: rest := by
          rw [List.filter_eq_self.mpr fun d hd => by rw [halike d hd, hbreak]]
          exact (List.map_congr_left fun d hd => (hkept d hd).1).trans (List.map_id' _)
        rw [hall]
        exact if_neg fun heq => (hkept c List.mem_cons_self).2 (List.cons.inj heq).1

theorem length_folded_le (padding : List Char) : (folded padding).length ≤ padding.length := by
  have hle := List.length_filter_le isBreak padding
  unfold folded
  split
  · exact Nat.le_refl _
  · next first more hbreaks =>
    have hlength := congrArg List.length hbreaks
    rw [List.length_map, List.length_cons] at hlength
    split
    · split
      · rw [List.length_singleton]
        omega
      · omega
    · rw [List.length_cons]
      omega

theorem length_readFrom_le (padding text : List Char) :
    (readFrom padding text).length ≤ padding.length + text.length := by
  induction text generalizing padding with
  | nil => exact length_folded_le padding
  | cons c s ih =>
    rw [readFrom]
    split
    · have hle := ih (padding ++ [c])
      rw [List.length_append, List.length_singleton] at hle
      rw [List.length_cons]
      omega
    · have hle := length_folded_le padding
      have hrest := ih []
      rw [List.length_append, List.length_cons, List.length_cons]
      rw [List.length_nil] at hrest
      omega

theorem readFrom_eq_append_iff {padding : List Char} (h : ∀ c ∈ padding, isPadding c = true)
    (text : List Char) : readFrom padding text = padding ++ text ↔
      '\u0085' ∉ padding ++ text ∧ (padding ++ text).IsChain FoldAlike := by
  induction text generalizing padding with
  | nil =>
    rw [List.append_nil]
    exact folded_eq_self_iff h
  | cons c s ih =>
    rw [readFrom]
    split
    · next hc =>
      have hpadding : ∀ d ∈ padding ++ [c], isPadding d = true := by
        intro d hd
        rcases List.mem_append.mp hd with hd | hd
        · exact h d hd
        · rwa [List.mem_singleton.mp hd]
      rw [List.append_cons padding c s]
      exact ih hpadding
    · next hc =>
      have hparts : folded padding ++ c :: readFrom [] s = padding ++ c :: s ↔
          folded padding = padding ∧ readFrom [] s = s := by
        constructor
        · intro heq
          have hlength := congrArg List.length heq
          have hle := length_folded_le padding
          have hrest := length_readFrom_le [] s
          simp only [List.length_append, List.length_cons, List.length_nil] at hlength hrest
          obtain ⟨hfolded, hbehind⟩ := List.append_inj heq (by omega)
          exact ⟨hfolded, (List.cons.inj hbehind).2⟩
        · rintro ⟨hfolded, hbehind⟩
          rw [hfolded, hbehind]
      -- A character that does not fold is alike to all others.
      have hchain : (padding ++ c :: s).IsChain FoldAlike ↔
          padding.IsChain FoldAlike ∧ s.IsChain FoldAlike := by
        rw [List.isChain_append, List.isChain_cons]
        refine and_congr_right fun _ => ⟨fun h => h.1.2, fun h => ⟨⟨?_, h⟩, ?_⟩⟩
        · exact fun d _ hpad => absurd hpad hc
        · intro d _ e he _ hpad
          rw [List.head?_cons, Option.mem_some_iff] at he
          exact absurd (he ▸ hpad) hc
      have hnext : '\u0085' ∉ padding ++ c :: s ↔ '\u0085' ∉ padding ∧ '\u0085' ∉ s := by
        have hne : '\u0085' ≠ c := by
          rintro rfl
          exact hc rfl
        rw [List.mem_append, List.mem_cons, not_or, not_or]
        exact and_congr_right fun _ => and_iff_right hne
      have hs := ih (List.forall_mem_nil fun c => isPadding c = true)
      rw [List.nil_append] at hs
      rw [hparts, folded_eq_self_iff h, hs, hchain, hnext]
      exact and_and_and_comm

/-- A text is read as it was if and only if it has no next line, and no space beside a break. -/
theorem readBack_eq_self_iff {text : List Char} :
    readBack text = text ↔ '\u0085' ∉ text ∧ text.IsChain FoldAlike :=
  readFrom_eq_append_iff (List.forall_mem_nil fun c => isPadding c = true) text

end WorkflowRecipes.Yaml
