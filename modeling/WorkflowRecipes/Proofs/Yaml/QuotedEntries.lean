import WorkflowRecipes.Proofs.Yaml.FirstToken
import WorkflowRecipes.Proofs.Yaml.MarkedText

/-!
# Entries with quoted values

How the text of a block mapping at the left margin is cut into tokens when its keys are words of
letters and its values are strings in quotes.

Results:
1. `finish?_word`, `finish?_colon`, `finish?_value`: one step for each part of an entry.
2. `finish?_closed`, `finish?_open`: an entry, with the closing quote of its value or without.
3. `toToken_afterKey`, `finish?_end`: what stands between two entries, and behind the last.
-/

namespace WorkflowRecipes.Yaml

open Cursor

/-! ## Words of letters -/

theorem ne_of_isAlpha {c : Char} (h : c.isAlpha = true) {d : Char} (hd : d.isAlpha = false) :
    (c == d) = false :=
  beq_eq_false_iff_ne.mpr (ne_of_apply_ne Char.isAlpha (by rw [h, hd]; decide))

theorem plainRun?_word {word : List Char} (h : ∀ c ∈ word, c.isAlpha = true) (rest : List Char) :
    plainRun? false (word ++ ':' :: ' ' :: rest) = some (word, word.length, ':' :: ' ' :: rest) := by
  induction word with
  | nil => rfl
  | cons c word ih =>
    obtain ⟨hc, hword⟩ := List.forall_mem_cons.mp h
    have hgap : (isGap c || isBreak c) = false := by
      simp [isGap, isBreak, ne_of_isAlpha hc]
    rw [List.cons_append, plainRun?, hgap, ne_of_isAlpha hc rfl, ih hword]
    rfl

theorem plainScalar?_word {word : List Char} (hne : word ≠ []) (h : ∀ c ∈ word, c.isAlpha = true)
    (indent size i l : Nat) (rest : List Char) :
    plainScalar? false indent size ⟨word ++ ':' :: ' ' :: rest, i, l, 0⟩ =
      some (word, false, ⟨':' :: ' ' :: rest, i + word.length, l, word.length⟩) := by
  obtain ⟨c, tail, rfl⟩ := List.exists_cons_of_ne_nil hne
  have hc := h c List.mem_cons_self
  have hrun := plainRun?_word h rest
  have hcomment : isAt ⟨c :: tail ++ ':' :: ' ' :: rest, i, l, 0⟩ '#' = false :=
    ne_of_isAlpha hc rfl
  have hpast : past ⟨c :: tail ++ ':' :: ' ' :: rest, i, l, 0⟩ (c :: tail).length
      (':' :: ' ' :: rest) = ⟨':' :: ' ' :: rest, i + (c :: tail).length, l, (c :: tail).length⟩ := by
    simp [past]
  rw [plainScalar?, plainLines?, hcomment, if_neg Bool.false_ne_true, hrun, Option.bind_some]
  dsimp only
  rw [hpast]
  simp [sees, isGap, isBreak]

namespace Scan

theorem isIndicator_of_isAlpha {c : Char} (h : c.isAlpha = true) : isIndicator c = false := by
  have hnone : ("-?:,[]\x7b\x7d#&*!|>'\"%@`".toList.all fun d => !d.isAlpha) = true := by decide
  rw [← Bool.not_eq_true]
  intro hc
  unfold isIndicator at hc
  simpa [h] using List.all_eq_true.mp hnone c (List.contains_iff_mem.mp hc)

theorem fetch?_of_isAlpha {size : Nat} {s : Scan} {c : Char} (h : c.isAlpha = true)
    (after : List Char) : s.fetch? size c after = s.plain? size := by
  have hgap : isGap c = false := by simp [isGap, ne_of_isAlpha h]
  simp [fetch?, ne_of_isAlpha h, isIndicator_of_isAlpha h, hgap]

/-! ## What separates tokens -/

theorem toToken_eq_self {s : Scan} {c : Char} {t : List Char} (hrest : s.cursor.rest = c :: t)
    (hc : canStart c = true) (n : Nat) : s.toToken (n + 1) = s := by
  have hgap := afterGap_of_canStart hrest hc
  simp only [canStart, Bool.and_eq_true, Bool.not_eq_true'] at hc
  rw [toToken_succ, hgap, sees_cons hrest, hc.1.1.1.2, if_neg Bool.false_ne_true]

theorem toToken_nil {s : Scan} (hrest : s.cursor.rest = []) (n : Nat) : s.toToken (n + 1) = s := by
  have hgap : s.afterGap = s.cursor := by
    unfold afterGap
    rw [isAt_nil hrest, Bool.and_false, if_neg Bool.false_ne_true]
    dsimp only
    rw [skipRun_of_not_sees (sees_nil hrest _), skipComment_of_not_isAt (isAt_nil hrest _)]
  rw [toToken_succ, hgap, sees_nil hrest, if_neg Bool.false_ne_true]

theorem toToken_space {s : Scan} {c : Char} {t : List Char} (hrest : s.cursor.rest = ' ' :: c :: t)
    (hc : canStart c = true) (n : Nat) :
    s.toToken (n + 1) = { s with cursor := s.cursor.past 1 (c :: t) } := by
  simp only [canStart, isGap, Bool.and_eq_true, Bool.not_eq_true', Bool.or_eq_false_iff,
    bne_iff_ne] at hc
  obtain ⟨⟨⟨⟨⟨hspace, htab⟩, hbreak⟩, hcomment⟩, -⟩, -⟩ := hc
  have hnext := rest_past s.cursor 1 (c :: t)
  have hrun : (s.cursor.skipRun fun d => d == ' ' || ((s.flow || !s.keyAllowed) && d == '\t')) =
      s.cursor.past 1 (c :: t) := by
    have hone : s.cursor.rest = [' '] ++ c :: t := hrest
    rw [skipRun, takeRun_append hone (by simp) (by simp [hspace, htab])]
    rfl
  have hgap : s.afterGap = s.cursor.past 1 (c :: t) := by
    unfold afterGap
    rw [if_neg (by simp [isAt_cons hrest])]
    dsimp only
    rw [hrun, skipComment_of_not_isAt (by simp [isAt_cons hnext, hcomment])]
  rw [toToken_succ, hgap, sees_cons hnext, hbreak, if_neg Bool.false_ne_true]

theorem toToken_feed {s : Scan} {t : List Char} (hrest : s.cursor.rest = '\n' :: t) (n : Nat) :
    s.toToken (n + 1) = toToken n { s with
      cursor := ⟨t, s.cursor.index + 1, s.cursor.line + 1, 0⟩
      keyAllowed := s.keyAllowed || !s.flow } := by
  have hgap := afterGap_eq_cursor hrest rfl (by decide) (by decide)
  have hbreak : s.cursor.readBreak.2 = ⟨t, s.cursor.index + 1, s.cursor.line + 1, 0⟩ := by
    rw [readBreak, hrest]
    rfl
  rw [toToken_succ, hgap, if_pos (by rw [sees_cons hrest]; rfl), hbreak]

/-- The state in which a key at the left margin may start. -/
def atKey (rest : List Char) (index line : Nat) (tokens : List Token) (indents : List Nat) : Scan :=
  ⟨⟨rest, index, line, 0⟩, tokens.toArray, indents, none, [], true⟩

/-- The state behind a word that may be a key. -/
def atColon (word rest : List Char) (index line : Nat) (tokens : List Token) (indents : List Nat) :
    Scan :=
  ⟨⟨':' :: ' ' :: rest, index + word.length, line, word.length⟩,
    (tokens ++ [Token.scalar word .plain]).toArray, indents,
    some ⟨tokens.length, !indents.isEmpty, index, line, 0⟩, [], false⟩

/-- What the first key of a mapping starts with. -/
def opened (indents : List Nat) : List Token :=
  if indents.isEmpty then [.blockMappingStart] else []

/-- The state behind the colon of a key at the left margin, or behind its value. -/
def afterKey (cursor : Cursor) (tokens : List Token) : Scan :=
  ⟨cursor, tokens.toArray, [0], none, [], false⟩

theorem expireAll?_of_none {s : Scan} (hpending : s.pending = none) (houter : s.outer = []) :
    s.expireAll? = some s := by
  obtain ⟨cursor, tokens, indents, pending, outer, keyAllowed⟩ := s
  cases hpending
  cases houter
  rfl

/-- A key on the line of the cursor is kept for 1024 characters. -/
theorem expireAll?_of_some {s : Scan} {key : PendingKey} (hpending : s.pending = some key)
    (houter : s.outer = []) (hnear : s.cursor.line ≤ key.line ∧ s.cursor.index ≤ key.index + 1024) :
    s.expireAll? = some s := by
  obtain ⟨cursor, tokens, indents, pending, outer, keyAllowed⟩ := s
  cases hpending
  cases houter
  have hkept : expire? cursor (some key) = some (some key) :=
    if_neg (by simpa using hnear)
  rw [expireAll?, hkept]
  rfl

theorem insertIdx_toArray (tokens more : List Token) (token : Token) :
    (tokens ++ more).toArray.insertIdxIfInBounds tokens.length token =
      (tokens ++ token :: more).toArray := by
  rw [List.insertIdxIfInBounds_toArray]
  refine congrArg List.toArray ?_
  induction tokens with
  | nil => rfl
  | cons first tokens ih => exact congrArg (first :: ·) ih

/-- A word of letters at the left margin may be a key. -/
theorem finish?_word {size i l : Nat} {s : Scan} {word rest : List Char} {tokens : List Token}
    {indents : List Nat} (hne : word ≠ []) (halpha : ∀ c ∈ word, c.isAlpha = true)
    (hindents : indents = [] ∨ indents = [0])
    (hs : s.toToken (size + 1) = atKey (word ++ ':' :: ' ' :: rest) i l tokens indents) (n : Nat) :
    finish? size (n + 1) s = finish? size n (atColon word rest i l tokens indents) := by
  obtain ⟨c, tail, hword⟩ := List.exists_cons_of_ne_nil hne
  have hc : c.isAlpha = true := halpha c (hword ▸ List.mem_cons_self)
  have hrest : (s.toToken (size + 1)).cursor.rest = c :: (tail ++ ':' :: ' ' :: rest) := by
    rw [hs, hword]
    rfl
  rw [finish?, expireAll?_of_none (by rw [hs]; rfl) (by rw [hs]; rfl), Option.bind_some, hrest]
  dsimp only
  rw [fetch?_of_isAlpha hc, hs]
  have hunroll : (atKey (word ++ ':' :: ' ' :: rest) i l tokens indents).unroll
      (some (atKey (word ++ ':' :: ' ' :: rest) i l tokens indents).cursor.column) =
      atKey (word ++ ':' :: ' ' :: rest) i l tokens indents := by
    rcases hindents with rfl | rfl <;> rfl
  have hsave : (atKey (word ++ ':' :: ' ' :: rest) i l tokens indents).saveKey? =
      some { atKey (word ++ ':' :: ' ' :: rest) i l tokens indents with
        pending := some ⟨tokens.length, !indents.isEmpty, i, l, 0⟩ } := by
    rcases hindents with rfl | rfl <;> rfl
  have hplain : ∀ indent, plainScalar? false indent size
      (atKey (word ++ ':' :: ' ' :: rest) i l tokens indents).cursor =
        some (word, false, ⟨':' :: ' ' :: rest, i + word.length, l, word.length⟩) :=
    fun indent => plainScalar?_word hne halpha indent size i l rest
  rw [hunroll, plain?, hsave, Option.bind_some]
  dsimp only
  show (Option.map _ (plainScalar? false _ size _)).bind _ = _
  rw [hplain, Option.map_some, Option.bind_some, atColon, ← List.push_toArray]
  rfl

/-- Its colon makes it one, and opens the mapping if it is the first. -/
theorem valueMark?_atColon {word rest : List Char} {i l : Nat} {tokens : List Token}
    {indents : List Nat} (hindents : indents = [] ∨ indents = [0]) :
    (atColon word rest i l tokens indents).valueMark? =
      some (afterKey ⟨' ' :: rest, i + word.length + 1, l, word.length + 1⟩
        (tokens ++ opened indents ++ [.key, .scalar word .plain, .value])) := by
  have hkey := insertIdx_toArray tokens [Token.scalar word .plain] .key
  have hstart := insertIdx_toArray tokens [.key, Token.scalar word .plain] .blockMappingStart
  rcases hindents with rfl | rfl
  · show some (Scan.mk ⟨' ' :: rest, i + word.length + 1, l, word.length + 1⟩
      ((((tokens ++ [Token.scalar word .plain]).toArray.insertIdxIfInBounds tokens.length
        .key).insertIdxIfInBounds tokens.length .blockMappingStart).push .value) [0] none []
          false) = _
    rw [hkey, hstart, List.push_toArray]
    simp [afterKey, opened]
  · show some (Scan.mk ⟨' ' :: rest, i + word.length + 1, l, word.length + 1⟩
      (((tokens ++ [Token.scalar word .plain]).toArray.insertIdxIfInBounds tokens.length
        .key).push .value) [0] none [] false) = _
    rw [hkey, List.push_toArray]
    simp [afterKey, opened]

theorem finish?_colon {size i l : Nat} {word rest : List Char} {tokens : List Token}
    {indents : List Nat} (hshort : word.length ≤ 1024) (hindents : indents = [] ∨ indents = [0])
    (n : Nat) :
    finish? size (n + 1) (atColon word rest i l tokens indents) =
      finish? size n (afterKey ⟨' ' :: rest, i + word.length + 1, l, word.length + 1⟩
        (tokens ++ opened indents ++ [.key, .scalar word .plain, .value])) := by
  have hfetch : (atColon word rest i l tokens indents).fetch? size ':' (' ' :: rest) =
      (atColon word rest i l tokens indents).valueMark? := by
    simp [fetch?, flow, atColon, atWordEnd, isGap]
  have hunroll : (atColon word rest i l tokens indents).unroll
      (some (atColon word rest i l tokens indents).cursor.column) =
        atColon word rest i l tokens indents := by
    rcases hindents with rfl | rfl <;> rfl
  rw [finish?, toToken_eq_self rfl (by decide), expireAll?_of_some rfl rfl ⟨Nat.le_refl l, by
    dsimp only [atColon]; omega⟩, Option.bind_some]
  show ((((atColon word rest i l tokens indents).unroll _).fetch? size ':' (' ' :: rest)).bind _) = _
  rw [hunroll, hfetch, valueMark?_atColon hindents, Option.bind_some]

/-- A string in quotes behind the colon is its value. -/
theorem finish?_value (size n i l k : Nat) (rest : List Char) (tokens : List Token) :
    finish? size (n + 1) (afterKey ⟨' ' :: '"' :: rest, i, l, k⟩ tokens) =
      (quotedScalar? size ⟨'"' :: rest, i + 1, l, k + 1⟩).bind fun read =>
        finish? size n (afterKey read.2 (tokens ++ [.scalar read.1 .quoted])) := by
  let s := afterKey ⟨'"' :: rest, i + 1, l, k + 1⟩ tokens
  have hskip : (afterKey ⟨' ' :: '"' :: rest, i, l, k⟩ tokens).toToken (size + 1) = s :=
    toToken_space rfl (by decide) size
  have hunroll : s.unroll (some s.cursor.column) = s := rfl
  have hfetch : s.fetch? size '"' rest = s.keyPart? fun c =>
      (quotedScalar? size c).map fun read => (.scalar read.1 .quoted, read.2) := by
    simp [fetch?]
  rw [finish?, hskip, expireAll?_of_none rfl rfl, Option.bind_some]
  show ((s.unroll _).fetch? size '"' rest).bind _ = _
  rw [hunroll, hfetch]
  show (((quotedScalar? size ⟨'"' :: rest, i + 1, l, k + 1⟩).map _).map _).bind _ = _
  cases quotedScalar? size ⟨'"' :: rest, i + 1, l, k + 1⟩ with
  | none => rfl
  | some read =>
    rw [Option.map_some, Option.map_some, Option.bind_some, Option.bind_some, afterKey,
      ← List.push_toArray]
    rfl

/-- The tokens of an entry. -/
def entryTokens (word text : List Char) : List Token :=
  [.key, .scalar word .plain, .value, .scalar text .quoted]

section Entry

variable {size i l : Nat} {s : Scan} {word text rest : List Char} {tokens : List Token}
  {indents : List Nat} (hne : word ≠ []) (halpha : ∀ c ∈ word, c.isAlpha = true)
  (hshort : word.length ≤ 1024) (hsize : text.length ≤ size)
  (hindents : indents = [] ∨ indents = [0])

include hne halpha hshort hindents

/-- An entry is cut into its key and its value, if the value can be read. -/
theorem finish?_entry
    (hs : s.toToken (size + 1) = atKey (word ++ ':' :: ' ' :: '"' :: rest) i l tokens indents)
    (n : Nat) :
    ∃ cursor : Cursor, cursor.rest = '"' :: rest ∧ finish? size (n + 3) s =
      (quotedScalar? size cursor).bind fun read => finish? size n
        (afterKey read.2 (tokens ++ opened indents ++ entryTokens word read.1)) := by
  refine ⟨⟨'"' :: rest, i + word.length + 2, l, word.length + 2⟩, rfl, ?_⟩
  rw [finish?_word hne halpha hindents hs, finish?_colon hshort hindents, finish?_value]
  simp only [List.append_assoc]
  rfl

include hsize

theorem finish?_closed
    (hs : s.toToken (size + 1) = atKey (word ++ ':' :: ' ' :: '"' ::
      (text.flatMap Text.jsonChar ++ '"' :: rest)) i l tokens indents) (n : Nat) :
    ∃ cursor : Cursor, cursor.rest = rest ∧ finish? size (n + 3) s = finish? size n
      (afterKey cursor (tokens ++ opened indents ++ entryTokens word (readBack text))) := by
  obtain ⟨quote, hquote, hentry⟩ := finish?_entry hne halpha hshort hindents hs n
  obtain ⟨next, hnext, hread⟩ := quotedScalar?_closed hquote hsize
  exact ⟨next, hnext, by rw [hentry, hread, Option.bind_some]⟩

theorem finish?_open
    (hs : s.toToken (size + 1) =
      atKey (word ++ ':' :: ' ' :: '"' :: text.flatMap Text.jsonChar) i l tokens indents)
    (n : Nat) : finish? size (n + 3) s = none := by
  obtain ⟨quote, hquote, hentry⟩ := finish?_entry hne halpha hshort hindents hs n
  rw [hentry, quotedScalar?_open hquote hsize, Option.bind_none]

end Entry

/-- The next line is at a key again. -/
theorem toToken_afterKey {size : Nat} (hsize : 0 < size) {cursor : Cursor} {c : Char}
    {rest : List Char} (hrest : cursor.rest = '\n' :: c :: rest) (hc : c.isAlpha = true)
    (tokens : List Token) :
    (afterKey cursor tokens).toToken (size + 1) =
      atKey (c :: rest) (cursor.index + 1) (cursor.line + 1) tokens [0] := by
  obtain ⟨m, rfl⟩ : ∃ m, size = m + 1 := ⟨size - 1, by omega⟩
  have hstart : canStart c = true := by
    simp [canStart, isGap, isBreak, bne, ne_of_isAlpha hc]
  rw [toToken_feed hrest]
  exact toToken_eq_self rfl hstart m

/-- At the end of the text the mapping is closed. -/
theorem finish?_end {size : Nat} (hsize : 0 < size) {cursor : Cursor} (hrest : cursor.rest = ['\n'])
    (tokens : List Token) (n : Nat) :
    finish? size (n + 1) (afterKey cursor tokens) = some (tokens ++ [.blockEnd]) := by
  obtain ⟨m, rfl⟩ : ∃ m, size = m + 1 := ⟨size - 1, by omega⟩
  rw [finish?, toToken_feed hrest, toToken_nil rfl, expireAll?_of_none rfl rfl, Option.bind_some]
  show some ((tokens.toArray.push .blockEnd).toList) = _
  rw [List.push_toArray]

end Scan

end WorkflowRecipes.Yaml
