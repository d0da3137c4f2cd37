import WorkflowRecipes.Proofs.Text.Json
import WorkflowRecipes.Proofs.Yaml.Cursor
import WorkflowRecipes.Proofs.Yaml.FoldedText
import WorkflowRecipes.Yaml.ScalarText

/-!
# Quoted strings as scalars

A string in the quotes of JSON is read as a quoted scalar. What is escaped in it comes back as it
was, but lines fold at the breaks that are not escaped.

Results:
1. `quotedRun?_word`, `foldGap?_padding`: what is read of a run of characters, and of a fold.
2. `exists_quotedLines?_last`: all lines of a string, up to its last run.
3. `quotedScalar?_closed`, `quotedScalar?_open`: the scalar, with its closing quote or without.
-/

namespace WorkflowRecipes.Yaml

open Cursor

/-! ## Characters in quotes -/

/-- Padding is not escaped. -/
theorem jsonChar_of_isPadding {c : Char} (h : isPadding c = true) : Text.jsonChar c = [c] := by
  rcases isPadding_cases h with rfl | rfl | rfl | rfl <;> rfl

theorem flatMap_jsonChar_of_isPadding {padding : List Char}
    (h : ∀ c ∈ padding, isPadding c = true) : padding.flatMap Text.jsonChar = padding := by
  induction padding with
  | nil => rfl
  | cons c rest ih =>
    obtain ⟨hc, hrest⟩ := List.forall_mem_cons.mp h
    rw [List.flatMap_cons, jsonChar_of_isPadding hc, ih hrest, List.singleton_append]

/-- An escaped control character is read back. -/
theorem escape?_hexText {c : Char} (h : c.toNat < 0x20) (s : List Char) :
    escape? 'u' (Text.hexText 4 c.toNat ++ s) = some (c, 4, s) := by
  have hvalue : 16 ^ 4 * 0 + c.toNat % 16 ^ 4 = c.toNat := by omega
  have hvalid : c.toNat.isValidChar := .inl (by omega)
  have hshort : shortEscape? 'u' = none := rfl
  have hwidth : escapeWidth? 'u' = some 4 := rfl
  rw [escape?, hshort]
  dsimp only
  rw [hwidth, Option.bind_some, Json.hexDigits?_hexText, hvalue, Option.bind_some]
  simp only [if_pos hvalid, Char.ofNat_toNat]

/-- A character that does not fold is read, in whatever way it is written. -/
theorem quotedRun?_jsonChar {c : Char} (h : isPadding c = false) {cursor : Cursor} {s : List Char}
    (hrest : cursor.rest = Text.jsonChar c ++ s) (n : Nat) (text : List Char) :
    ∃ next : Cursor, next.rest = s ∧
      quotedRun? false (n + 1) cursor text = quotedRun? false n next (c :: text) := by
  rw [quotedRun?]
  unfold Text.jsonChar at hrest
  split at hrest
  -- The escapes of one letter, then all other characters.
  iterate 7 exact ⟨cursor.past 2 s, rfl, by rw [hrest]; rfl⟩
  next hquote hslash hfeed hreturn htab _ _ =>
    split at hrest
    · next hcontrol =>
      refine ⟨cursor.past 6 s, rfl, ?_⟩
      rw [hrest]
      show (escape? 'u' (Text.hexText 4 c.toNat ++ s)).bind _ = _
      rw [escape?_hexText hcontrol s]
      rfl
    · refine ⟨cursor.past 1 s, rfl, ?_⟩
      have hstays : (isGap c || isBreak c) = false := by
        simp only [isPadding, Bool.or_eq_false_iff, beq_eq_false_iff_ne] at h
        simp [isGap, isBreak, h, imp_false.mp hfeed, imp_false.mp hreturn, imp_false.mp htab]
      rw [hrest]
      simp [hstays, imp_false.mp hquote, imp_false.mp hslash]

/-! ## Runs and folds -/

/-- Whether a run of a quoted scalar ends before a text. -/
def EndsRun (text : List Char) : Prop :=
  text.head?.all fun c => isGap c || isBreak c || c == '"'

theorem quotedRun?_of_endsRun {cursor : Cursor} (h : EndsRun cursor.rest) (n : Nat)
    (text : List Char) : quotedRun? false n cursor text = some (text, false, cursor) := by
  cases n with
  | zero => rfl
  | succ n =>
    unfold EndsRun at h
    rw [quotedRun?]
    cases hrest : cursor.rest with
    | nil => rfl
    | cons c s =>
      rw [hrest, List.head?_cons, Option.all_some, Bool.or_eq_true] at h
      dsimp only
      rcases h with hfold | hquote
      · rw [if_pos hfold]
      · rw [if_neg (by rw [beq_iff_eq.mp hquote]; decide), if_neg Bool.false_ne_true, if_pos hquote]

/-- Characters that do not fold are read up to the end of their run. -/
theorem quotedRun?_word {word tail : List Char} (hword : ∀ c ∈ word, isPadding c = false)
    (htail : EndsRun tail) {cursor : Cursor} (hrest : cursor.rest = word.flatMap Text.jsonChar ++ tail)
    {n : Nat} (hn : word.length ≤ n) (text : List Char) :
    ∃ next : Cursor, next.rest = tail ∧
      quotedRun? false n cursor text = some (word.reverse ++ text, false, next) := by
  induction word generalizing cursor n text with
  | nil => exact ⟨cursor, hrest, quotedRun?_of_endsRun (by rw [hrest]; exact htail) n text⟩
  | cons c word ih =>
    obtain ⟨hc, hword⟩ := List.forall_mem_cons.mp hword
    obtain ⟨m, rfl⟩ : ∃ m, n = m + 1 := ⟨n - 1, by simp at hn; omega⟩
    rw [List.flatMap_cons, List.append_assoc] at hrest
    obtain ⟨next, hnext, hchar⟩ := quotedRun?_jsonChar hc hrest m text
    obtain ⟨last, hlast, hrun⟩ := ih hword hnext (Nat.le_of_succ_le_succ hn) (c :: text)
    refine ⟨last, hlast, ?_⟩
    rw [hchar, hrun, List.reverse_cons, List.append_assoc, List.singleton_append]

/-- Whether padding ends before a text. -/
def EndsPadding (text : List Char) : Prop :=
  text.head?.all fun c => !(isGap c || isBreak c)

theorem not_isGap_of_endsPadding {text : List Char} (h : EndsPadding text) :
    text.head?.all fun c => !isGap c := by
  unfold EndsPadding at h
  cases text with
  | nil => rfl
  | cons c s =>
    rw [List.head?_cons, Option.all_some, Bool.not_or, Bool.and_eq_true] at h
    exact h.1

theorem sees_of_endsPadding {cursor : Cursor} (h : EndsPadding cursor.rest) :
    cursor.sees isGap = false ∧ cursor.sees isBreak = false := by
  unfold EndsPadding at h
  cases hrest : cursor.rest with
  | nil => exact ⟨sees_nil hrest _, sees_nil hrest _⟩
  | cons c s => simpa [sees_cons hrest, hrest] using h

theorem readBreak_of_isPadding {cursor : Cursor} {c : Char} {s : List Char}
    (hrest : cursor.rest = c :: s) (h : isPadding c = true) (hbreak : isBreak c = true) :
    ∃ next : Cursor, next.rest = s ∧ cursor.readBreak = ([breakText c], next) := by
  refine ⟨⟨s, cursor.index + 1, cursor.line + 1, 0⟩, rfl, ?_⟩
  unfold readBreak
  rw [hrest]
  rcases isPadding_cases h with rfl | rfl | rfl | rfl
  · cases hbreak
  all_goals rfl

theorem furtherBreaks?_padding {padding tail : List Char}
    (hpadding : ∀ c ∈ padding, isPadding c = true) (htail : EndsPadding tail) {cursor : Cursor}
    (hrest : cursor.rest = padding ++ tail) {n : Nat} (hn : padding.length ≤ n) :
    ∃ next : Cursor, next.rest = tail ∧
      furtherBreaks? 0 n cursor = some ((padding.filter isBreak).map breakText, next) := by
  induction padding generalizing cursor n with
  | nil =>
    refine ⟨cursor, hrest, ?_⟩
    cases n with
    | zero => rfl
    | succ n =>
      obtain ⟨hgap, hbreak⟩ := sees_of_endsPadding (by rw [hrest]; exact htail)
      simp [furtherBreaks?, hgap, hbreak]
  | cons c padding ih =>
    obtain ⟨hc, hpadding⟩ := List.forall_mem_cons.mp hpadding
    obtain ⟨m, rfl⟩ : ∃ m, n = m + 1 := ⟨n - 1, by simp at hn; omega⟩
    have hm : padding.length ≤ m := Nat.le_of_succ_le_succ hn
    rw [furtherBreaks?, if_neg (by simp), sees_cons hrest, sees_cons hrest]
    cases hbreak : isBreak c with
    | false =>
      have hskip : cursor.skip.rest = padding ++ tail := rest_skip hrest
      rw [isGap_eq_not_isBreak hc, hbreak, Bool.not_false, if_pos rfl,
        List.filter_cons_of_neg (by simp [hbreak])]
      exact ih hpadding hskip hm
    | true =>
      obtain ⟨first, hfirst, hread⟩ := readBreak_of_isPadding hrest hc hbreak
      obtain ⟨next, hnext, hmore⟩ := ih hpadding hfirst hm
      refine ⟨next, hnext, ?_⟩
      rw [isGap_eq_not_isBreak hc, hbreak, if_neg (by decide), if_pos rfl, hread]
      dsimp only
      rw [hmore, List.filter_cons_of_pos hbreak]
      rfl

/-- Padding between two runs folds. -/
theorem foldGap?_padding {padding tail : List Char}
    (hpadding : ∀ c ∈ padding, isPadding c = true) (htail : EndsPadding tail) {cursor : Cursor}
    (hrest : cursor.rest = padding ++ tail) {n : Nat} (hn : padding.length ≤ n) :
    ∃ broken, ∃ next : Cursor, next.rest = tail ∧
      foldGap? 0 n cursor = some (folded padding, broken, next) := by
  obtain ⟨gaps, more, rfl, hgaps, hmore⟩ := exists_run isGap padding
  have hnone : gaps.filter isBreak = [] := by
    refine List.filter_eq_nil_iff.mpr fun c hc => ?_
    have hgap := hgaps c hc
    rw [isGap_eq_not_isBreak (hpadding c (List.mem_append_left _ hc))] at hgap
    simpa using hgap
  have hrun : cursor.takeRun isGap = (gaps, cursor.past gaps.length (more ++ tail)) := by
    refine takeRun_append (by rw [hrest, List.append_assoc]) hgaps ?_
    cases more with
    | nil => exact not_isGap_of_endsPadding htail
    | cons c more => exact hmore
  unfold foldGap? folded
  rw [hrun, List.filter_append, hnone, List.nil_append]
  dsimp only
  cases more with
  | nil =>
    let next := cursor.past gaps.length tail
    have hends : EndsPadding next.rest := htail
    obtain ⟨-, hbreak⟩ := sees_of_endsPadding hends
    refine ⟨false, next, rfl, ?_⟩
    rw [List.nil_append, hbreak, List.append_nil]
    rfl
  | cons b more =>
    have hb : isPadding b = true := hpadding b (by simp)
    have hbreak : isBreak b = true := by
      have hgap : isGap b = false := by simpa using hmore
      rw [isGap_eq_not_isBreak hb] at hgap
      simpa using hgap
    have hpast : (cursor.past gaps.length (b :: more ++ tail)).rest = b :: (more ++ tail) := rfl
    obtain ⟨first, hfirst, hread⟩ := readBreak_of_isPadding hpast hb hbreak
    obtain ⟨next, hnext, hfurther⟩ := furtherBreaks?_padding
      (fun c hc => hpadding c (by simp [hc])) htail hfirst (n := n)
      (by simp at hn; omega)
    refine ⟨true, next, hnext, ?_⟩
    rw [sees_cons hpast, if_pos hbreak, hread, List.filter_cons_of_pos hbreak]
    dsimp only
    rw [hfurther]
    rfl

/-! ## Lines -/

theorem endsRun_quote (s : List Char) : EndsRun ('"' :: s) := rfl

theorem endsPadding_quote (s : List Char) : EndsPadding ('"' :: s) := rfl

theorem endsRun_nil : EndsRun [] := rfl

theorem endsPadding_nil : EndsPadding [] := rfl

theorem quotedLines?_nil {cursor : Cursor} (h : cursor.rest = []) {size : Nat} (n : Nat)
    (text : List Char) : quotedLines? false size n cursor text = none := by
  cases n with
  | zero => rfl
  | succ n => rw [quotedLines?, h, List.isEmpty_nil, if_pos rfl]

theorem endsPadding_jsonChar {c : Char} (h : isPadding c = false) (s : List Char) :
    EndsPadding (Text.jsonChar c ++ s) := by
  unfold Text.jsonChar
  split
  iterate 7 rfl
  next hquote hslash hfeed hreturn htab _ _ =>
    split
    · rfl
    · simp only [isPadding, Bool.or_eq_false_iff, beq_eq_false_iff_ne] at h
      simp [EndsPadding, isGap, isBreak, h, imp_false.mp hfeed, imp_false.mp hreturn,
        imp_false.mp htab]

theorem endsPadding_flatMap {text close : List Char}
    (htext : (text.head?.all fun c => !isPadding c) = true) (hclose : EndsPadding close) :
    EndsPadding (text.flatMap Text.jsonChar ++ close) := by
  cases text with
  | nil => exact hclose
  | cons c s =>
    rw [List.flatMap_cons, List.append_assoc]
    exact endsPadding_jsonChar (by simpa using htext) _

theorem endsRun_padding {padding : List Char} (h : ∀ c ∈ padding, isPadding c = true)
    (hne : padding ≠ []) (s : List Char) : EndsRun (padding ++ s) := by
  obtain ⟨c, padding, rfl⟩ := List.exists_cons_of_ne_nil hne
  rcases isPadding_cases (h c List.mem_cons_self) with rfl | rfl | rfl | rfl <;> rfl

/-- A run and the padding behind it. -/
theorem quotedLines?_line {word padding tail : List Char}
    (hword : ∀ c ∈ word, isPadding c = false) (hpadding : ∀ c ∈ padding, isPadding c = true)
    (hne : padding ≠ []) (htail : EndsPadding tail) {cursor : Cursor}
    (hrest : cursor.rest = word.flatMap Text.jsonChar ++ (padding ++ tail)) {size : Nat}
    (hsize : word.length + padding.length ≤ size) (n : Nat) (text : List Char) :
    ∃ next : Cursor, next.rest = tail ∧ quotedLines? false size (n + 1) cursor text =
      quotedLines? false size n next ((folded padding).reverse ++ (word.reverse ++ text)) := by
  obtain ⟨middle, hmiddle, hrun⟩ := quotedRun?_word hword (endsRun_padding hpadding hne tail) hrest
    (n := size) (by omega) text
  obtain ⟨broken, next, hnext, hfold⟩ := foldGap?_padding hpadding htail hmiddle (n := size)
    (by omega)
  obtain ⟨c, padding, rfl⟩ := List.exists_cons_of_ne_nil hne
  have hquote : middle.isAt '"' = false := by
    rw [isAt_cons hmiddle]
    rcases isPadding_cases (hpadding c List.mem_cons_self) with rfl | rfl | rfl | rfl <;> rfl
  have hempty : cursor.rest.isEmpty = false := by
    rw [hrest]
    simp
  refine ⟨next, hnext, ?_⟩
  rw [quotedLines?, hempty, if_neg Bool.false_ne_true, hrun, Option.bind_some]
  dsimp only
  rw [if_neg (by rw [if_neg Bool.false_ne_true, hquote]; exact Bool.false_ne_true),
    if_neg Bool.false_ne_true, hfold, Option.bind_some]

/-- All lines but the last run are read, and what they read as. -/
theorem exists_quotedLines?_last {close : List Char} (hclose : EndsPadding close) {size : Nat}
    {text : List Char} (hsize : text.length ≤ size) {cursor : Cursor}
    (hrest : cursor.rest = text.flatMap Text.jsonChar ++ close) {n : Nat} (hn : text.length < n)
    (before : List Char) :
    ∃ (m : Nat) (next : Cursor) (word read : List Char), (∀ c ∈ word, isPadding c = false) ∧
      word.length ≤ size ∧ next.rest = word.flatMap Text.jsonChar ++ close ∧
      quotedLines? false size n cursor before = quotedLines? false size (m + 1) next read ∧
      read.reverse ++ word = before.reverse ++ readBack text := by
  induction hlength : text.length using Nat.strongRecOn generalizing text cursor n before with
  | ind length ih =>
    subst hlength
    obtain ⟨m, rfl⟩ : ∃ m, n = m + 1 := ⟨n - 1, by omega⟩
    obtain ⟨word, behind, rfl, hword, hbehind⟩ := exists_run (fun c => !isPadding c) text
    obtain ⟨padding, rest, rfl, hpadding, hafter⟩ := exists_run isPadding behind
    have hword : ∀ c ∈ word, isPadding c = false := fun c hc => by simpa using hword c hc
    by_cases hne : padding = []
    · -- No padding behind the run: it is the last one.
      subst hne
      have hnil : rest = [] := by
        cases rest with
        | nil => rfl
        | cons c s =>
          simp only [List.nil_append, List.head?_cons, Option.all_some, Bool.not_not] at hbehind
          rw [List.head?_cons, Option.all_some, hbehind] at hafter
          cases hafter
      subst hnil
      simp only [List.append_nil] at hrest hsize ⊢
      refine ⟨m, cursor, word, before, hword, hsize, hrest, rfl, ?_⟩
      have hread := readBack_word hword []
      rw [List.append_nil, readBack_nil, List.append_nil] at hread
      rw [hread]
    · have hends := endsPadding_flatMap hafter hclose
      have hline : cursor.rest =
          word.flatMap Text.jsonChar ++ (padding ++ (rest.flatMap Text.jsonChar ++ close)) := by
        rw [hrest, List.flatMap_append, List.flatMap_append, flatMap_jsonChar_of_isPadding hpadding]
        simp only [List.append_assoc]
      have hpositive := List.length_pos_iff.mpr hne
      simp only [List.length_append] at hsize hn ih
      have hfits : word.length + padding.length ≤ size := by omega
      obtain ⟨next, hnext, hstep⟩ :=
        quotedLines?_line hword hpadding hne hends hline hfits m before
      obtain ⟨k, last, run, read, hrun, hshort, hlast, hlines, htext⟩ :=
        ih rest.length (by omega) (by omega) hnext (n := m) (by omega)
          ((folded padding).reverse ++ (word.reverse ++ before)) rfl
      refine ⟨k, last, run, read, hrun, hshort, hlast, hstep.trans hlines, ?_⟩
      rw [htext, readBack_word hword, readBack_padding hpadding hafter]
      simp only [List.reverse_append, List.reverse_reverse, List.append_assoc]

/-- A string in quotes is read as a scalar. -/
theorem quotedScalar?_closed {text rest : List Char} {cursor : Cursor}
    (hrest : cursor.rest = '"' :: (text.flatMap Text.jsonChar ++ '"' :: rest)) {size : Nat}
    (hsize : text.length ≤ size) :
    ∃ next : Cursor, next.rest = rest ∧
      quotedScalar? size cursor = some (readBack text, next) := by
  have hskip : cursor.skip.rest = text.flatMap Text.jsonChar ++ '"' :: rest := rest_skip hrest
  obtain ⟨m, last, word, read, hword, hshort, hlast, hlines, htext⟩ :=
    exists_quotedLines?_last (endsPadding_quote rest) hsize hskip (Nat.lt_succ_of_le hsize) []
  obtain ⟨next, hnext, hrun⟩ := quotedRun?_word hword (endsRun_quote rest) hlast hshort read
  have hquote : next.isAt '"' = true := isAt_cons hnext _
  have hempty : last.rest.isEmpty = false := by
    rw [hlast]
    simp
  refine ⟨next.skip, rest_skip hnext, ?_⟩
  rw [quotedScalar?, isAt_cons hrest]
  show quotedLines? false size (size + 1) cursor.skip [] = _
  rw [hlines, quotedLines?, hempty, if_neg Bool.false_ne_true, hrun, Option.bind_some]
  dsimp only
  rw [if_neg Bool.false_ne_true, if_pos hquote, List.reverse_append, List.reverse_reverse, htext]
  rfl

/-- Nothing is read of a string without its closing quote. -/
theorem quotedScalar?_open {text : List Char} {cursor : Cursor}
    (hrest : cursor.rest = '"' :: text.flatMap Text.jsonChar) {size : Nat}
    (hsize : text.length ≤ size) : quotedScalar? size cursor = none := by
  have hskip : cursor.skip.rest = text.flatMap Text.jsonChar ++ [] := by
    rw [rest_skip hrest, List.append_nil]
  obtain ⟨m, last, word, read, hword, hshort, hlast, hlines, -⟩ :=
    exists_quotedLines?_last endsPadding_nil hsize hskip (Nat.lt_succ_of_le hsize) []
  obtain ⟨next, hnext, hrun⟩ := quotedRun?_word hword endsRun_nil hlast hshort read
  have hquote : next.isAt '"' = false := isAt_nil hnext _
  rw [quotedScalar?, isAt_cons hrest]
  show quotedLines? false size (size + 1) cursor.skip [] = _
  rw [hlines, quotedLines?]
  split
  · rfl
  · rw [hrun, Option.bind_some]
    dsimp only
    rw [if_neg (by rw [if_neg Bool.false_ne_true, hquote]; exact Bool.false_ne_true),
      if_neg Bool.false_ne_true]
    obtain ⟨broken, after, hafter, hfold⟩ := foldGap?_padding (n := size) (List.forall_mem_nil _)
      endsPadding_nil hnext (Nat.zero_le _)
    rw [hfold, Option.bind_some]
    exact quotedLines?_nil hafter m _

end WorkflowRecipes.Yaml
