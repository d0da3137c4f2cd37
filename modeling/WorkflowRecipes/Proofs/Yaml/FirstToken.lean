import WorkflowRecipes.Yaml.Node
import WorkflowRecipes.Proofs.Yaml.Segments

/-!
# The first token of a text

A text whose first character starts something other than a comment, a directive or a marker opens
with a token of a document: tokens are only added, and a directive never stands before the first.

Results:
1. `Scan.gains_of_fetch?`: what one step of the cut adds.
2. `opensDocument_of_start`: such a text opens a document.
-/

namespace WorkflowRecipes.Yaml

/-- At least `n` tokens were added, and none that is a directive before the first. -/
structure Gains (n : Nat) (s t : Array Token) : Prop where
  size_le : s.size + n ≤ t.size
  head? : ∀ token, t.toList.head? = some token →
    s.toList.head? = some token ∨ token.isDirective = false

namespace Gains

variable {m n : Nat} {s t u : Array Token}

theorem rfl : Gains 0 s s := ⟨Nat.le_refl _, fun _ => .inl⟩

theorem trans (hst : Gains m s t) (htu : Gains n t u) : Gains (m + n) s u := by
  refine ⟨?_, fun token htoken => ?_⟩
  · have := hst.size_le
    have := htu.size_le
    omega
  · rcases htu.head? token htoken with ht | hplain
    · exact hst.head? token ht
    · exact .inr hplain

theorem push {token : Token} (h : token.isDirective = false ∨ 0 < s.size) :
    Gains 1 s (s.push token) := by
  obtain ⟨tokens⟩ := s
  refine ⟨by simp, fun first hfirst => ?_⟩
  cases tokens with
  | nil =>
    cases hfirst
    exact .inr (h.resolve_right (Nat.not_lt_zero 0))
  | cons one more => exact .inl (by simpa using hfirst)

theorem insertIdx {token : Token} (h : token.isDirective = false) (i : Nat) :
    Gains 0 s (s.insertIdxIfInBounds i token) := by
  obtain ⟨tokens⟩ := s
  rw [List.insertIdxIfInBounds_toArray]
  refine ⟨?_, fun first hfirst => ?_⟩
  · simp only [Nat.add_zero, List.size_toArray, List.length_insertIdx]
    split <;> omega
  · cases i with
    | zero =>
      cases hfirst
      exact .inr h
    | succ i => cases tokens <;> exact .inl hfirst

end Gains

namespace Scan

variable {s t : Scan}

theorem gains_unroll (column : Option Nat) : Gains 0 s.tokens (s.unroll column).tokens := by
  have hfrom : ∀ indents tokens, Gains 0 tokens (unrollFrom column indents tokens).2 := by
    intro indents
    induction indents with
    | nil => exact fun _ => .rfl
    | cons indent indents ih =>
      intro tokens
      rw [unrollFrom]
      split
      · have hpush : Gains 1 tokens (tokens.push .blockEnd) := .push (.inl rfl)
        have h := hpush.trans (ih _)
        exact ⟨Nat.le_of_succ_le h.size_le, h.head?⟩
      · exact .rfl
  unfold unroll
  split
  · exact .rfl
  · exact hfrom _ _

theorem gains_roll (column position : Nat) {token : Token} (h : token.isDirective = false) :
    Gains 0 s.tokens (s.roll column position token).tokens := by
  unfold roll
  split
  · exact .insertIdx h position
  · exact .rfl

theorem tokens_of_dropKey? (h : s.dropKey? = some t) : t.tokens = s.tokens := by
  unfold dropKey? at h
  split at h <;> cases h
  rfl

theorem tokens_of_saveKey? (h : s.saveKey? = some t) : t.tokens = s.tokens := by
  unfold saveKey? at h
  split at h
  · obtain ⟨u, hdrop, rfl⟩ := Option.map_eq_some_iff.mp h
    have hsame := tokens_of_dropKey? hdrop
    exact hsame
  · cases h
    rfl

theorem tokens_of_expireAll? (h : s.expireAll? = some t) : t.tokens = s.tokens := by
  obtain ⟨pending, -, h⟩ := Option.bind_eq_some_iff.mp h
  obtain ⟨outer, -, rfl⟩ := Option.map_eq_some_iff.mp h
  rfl

theorem tokens_toToken (n : Nat) (s : Scan) : (s.toToken n).tokens = s.tokens := by
  induction n generalizing s with
  | zero => rfl
  | succ n ih =>
    rw [toToken_succ]
    split
    · exact ih _
    · rfl

/-! ## What one step adds -/

theorem some_of_ite {α : Type} {p : Prop} [Decidable p] {x y : Option α} {a : α} {P : Prop}
    (hx : p → x = some a → P) (hy : ¬ p → y = some a → P) :
    (if p then x else y) = some a → P := by
  split
  · next h => exact hx h
  · next h => exact hy h

theorem gains_of_openFlow? {start : Token} (hstart : start.isDirective = false)
    (h : s.openFlow? start = some t) : Gains 1 s.tokens t.tokens := by
  obtain ⟨u, hsave, rfl⟩ := Option.map_eq_some_iff.mp h
  rw [← tokens_of_saveKey? hsave]
  exact .push (.inl hstart)

theorem gains_of_closeFlow? {stop : Token} (hstop : stop.isDirective = false)
    (h : s.closeFlow? stop = some t) : Gains 1 s.tokens t.tokens := by
  obtain ⟨u, hdrop, rfl⟩ := Option.map_eq_some_iff.mp h
  rw [← tokens_of_dropKey? hdrop]
  exact .push (.inl hstop)

/-- The pending key is dropped, then comes a one-character token. -/
theorem gains_of_dropKey? {token : Token} {f : Scan → Bool}
    (htoken : token.isDirective = false)
    (h : (s.dropKey?.map fun s => { s.pushSkip token with keyAllowed := f s }) = some t) :
    Gains 1 s.tokens t.tokens := by
  obtain ⟨u, hdrop, rfl⟩ := Option.map_eq_some_iff.mp h
  rw [← tokens_of_dropKey? hdrop]
  exact .push (.inl htoken)

theorem gains_of_blockEntry? (h : s.blockEntry? = some t) : Gains 1 s.tokens t.tokens := by
  unfold blockEntry? at h
  split at h
  · exact gains_of_dropKey? (f := fun _ => true) rfl h
  · split at h
    · exact (gains_roll _ _ rfl).trans (gains_of_dropKey? (f := fun _ => true) rfl h)
    · cases h

theorem gains_of_keyMark? (h : s.keyMark? = some t) : Gains 1 s.tokens t.tokens := by
  unfold keyMark? at h
  split at h
  · exact (gains_roll _ _ rfl).trans (gains_of_dropKey? (f := fun s => !s.flow) rfl h)
  · cases h

theorem gains_of_valueMark? (h : s.valueMark? = some t) : Gains 1 s.tokens t.tokens := by
  unfold valueMark? at h
  split at h
  · next key _ =>
    cases h
    let keyed : Scan := { s with tokens := s.tokens.insertIdxIfInBounds key.position .key }
    have hkey : Gains 0 s.tokens keyed.tokens := .insertIdx rfl key.position
    have hroll : Gains 0 keyed.tokens
        (keyed.roll key.column key.position .blockMappingStart).tokens := gains_roll _ _ rfl
    exact (hkey.trans hroll).trans (.push (.inl rfl))
  · split at h
    · cases h
      exact (gains_roll _ _ rfl).trans (.push (.inl rfl))
    · cases h

theorem gains_of_keyPart? {read : Cursor → Option (Token × Cursor)}
    (hread : ∀ c token d, read c = some (token, d) → token.isDirective = false)
    (h : s.keyPart? read = some t) : Gains 1 s.tokens t.tokens := by
  obtain ⟨u, hsave, h⟩ := Option.bind_eq_some_iff.mp h
  obtain ⟨⟨token, c⟩, htoken, rfl⟩ := Option.map_eq_some_iff.mp h
  rw [← tokens_of_saveKey? hsave]
  exact .push (.inl (hread _ _ _ htoken))

theorem gains_of_plain? {size : Nat} (h : s.plain? size = some t) : Gains 1 s.tokens t.tokens := by
  obtain ⟨u, hsave, h⟩ := Option.bind_eq_some_iff.mp h
  obtain ⟨⟨text, broken, c⟩, -, rfl⟩ := Option.map_eq_some_iff.mp h
  rw [← tokens_of_saveKey? hsave]
  exact .push (.inl rfl)

theorem gains_of_block? {size : Nat} (h : s.block? size = some t) : Gains 1 s.tokens t.tokens := by
  obtain ⟨u, hdrop, h⟩ := Option.bind_eq_some_iff.mp h
  obtain ⟨⟨text, c⟩, -, rfl⟩ := Option.map_eq_some_iff.mp h
  rw [← tokens_of_dropKey? hdrop]
  exact .push (.inl rfl)

theorem isDirective_of_tag? {flow : Bool} {size : Nat} {c d : Cursor} {token : Token}
    (h : tag? flow size c = some (token, d)) : token.isDirective = false := by
  obtain ⟨⟨handle, suffix, e⟩, -, h⟩ := Option.bind_eq_some_iff.mp h
  dsimp only at h
  split at h <;> cases h
  rfl

/-- A step adds a token; only where tokens stand already it may be a directive. -/
theorem gains_of_fetch? {size : Nat} {d : Char} {after : List Char}
    (hd : d = '%' → 0 < s.tokens.size) (h : s.fetch? size d after = some t) :
    Gains 1 s.tokens t.tokens := by
  have hmapped : ∀ {α : Type} {read : Cursor → Option (α × Cursor)} {f : α → Token},
      (∀ a, (f a).isDirective = false) → ∀ c token e,
        ((read c).map fun (a, e) => (f a, e)) = some (token, e) →
          token.isDirective = false := by
    intro α read f hf c token e hread
    obtain ⟨⟨a, e'⟩, -, heq⟩ := Option.map_eq_some_iff.mp hread
    cases heq
    exact hf a
  revert h
  unfold fetch?
  refine some_of_ite (fun hpercent h => ?directive) fun _ =>
    some_of_ite (fun _ => gains_of_openFlow? rfl) fun _ =>
    some_of_ite (fun _ => gains_of_openFlow? rfl) fun _ =>
    some_of_ite (fun _ => gains_of_closeFlow? rfl) fun _ =>
    some_of_ite (fun _ => gains_of_closeFlow? rfl) fun _ =>
    some_of_ite (fun _ => gains_of_dropKey? (f := fun _ => true) rfl) fun _ =>
    some_of_ite (fun _ => gains_of_blockEntry?) fun _ =>
    some_of_ite (fun _ => gains_of_keyMark?) fun _ =>
    some_of_ite (fun _ => gains_of_valueMark?) fun _ =>
    some_of_ite (fun _ => gains_of_keyPart? (hmapped (f := .alias) fun _ => rfl)) fun _ =>
    some_of_ite (fun _ => gains_of_keyPart? (hmapped (f := .anchor) fun _ => rfl)) fun _ =>
    some_of_ite (fun _ => gains_of_keyPart? fun _ _ _ => isDirective_of_tag?) fun _ =>
    some_of_ite (fun _ => gains_of_block?) fun _ =>
    some_of_ite (fun _ => gains_of_keyPart? (hmapped (f := (.scalar · .quoted)) fun _ => rfl))
      fun _ =>
    some_of_ite (fun _ => gains_of_plain?) fun _ => nofun
  obtain ⟨u, hdrop, h⟩ := Option.bind_eq_some_iff.mp h
  obtain ⟨⟨token, c⟩, -, rfl⟩ := Option.map_eq_some_iff.mp h
  have hsize : 0 < s.tokens.size := hd (beq_iff_eq.mp (Bool.and_eq_true_iff.mp hpercent).1)
  have hunroll := gains_unroll (s := s) none
  rw [← tokens_of_dropKey? hdrop] at hunroll
  exact hunroll.trans (.push (.inr (Nat.lt_of_lt_of_le hsize hunroll.size_le)))

theorem gains_of_finish? {size n : Nat} {tokens : List Token} (hs : 0 < s.tokens.size)
    (h : finish? size n s = some tokens) : Gains 0 s.tokens tokens.toArray := by
  induction n generalizing s with
  | zero => cases h
  | succ n ih =>
    rw [finish?] at h
    obtain ⟨t, hexpire, h⟩ := Option.bind_eq_some_iff.mp h
    have ht : t.tokens = s.tokens := (tokens_of_expireAll? hexpire).trans (tokens_toToken _ s)
    split at h
    · obtain ⟨u, hdrop, rfl⟩ := Option.map_eq_some_iff.mp h
      have hunroll := gains_unroll (s := t) none
      rwa [← tokens_of_dropKey? hdrop, ht] at hunroll
    · next d after hrest =>
      obtain ⟨u, hfetch, h⟩ := Option.bind_eq_some_iff.mp h
      have hunroll := gains_unroll (s := t) (some t.cursor.column)
      rw [ht] at hunroll
      have hfetch := hunroll.trans
        (gains_of_fetch? (fun _ => Nat.lt_of_lt_of_le hs hunroll.size_le) hfetch)
      have hrest := hfetch.trans (ih (Nat.lt_of_lt_of_le hs (by have := hfetch.size_le; omega)) h)
      exact ⟨by have := hrest.size_le; omega, hrest.head?⟩

end Scan

/-! ## The start of a document -/

/-- Whether a character at the start of a text stands for something: it is no gap, no break, no byte
order mark, and starts neither a comment nor a directive. -/
def canStart (c : Char) : Bool :=
  !isGap c && !isBreak c && c != '#' && c != '%' && c != '\uFEFF'

/-- Whether a text starts with a token that is part of a document. -/
def StartsDocument (text : List Char) : Prop :=
  ∃ c s, text = c :: s ∧ canStart c = true ∧ ¬ ['-', '-', '-'] <+: text ∧ ¬ ['.', '.', '.'] <+: text

/-- Nothing is skipped before a character that is no gap, no comment and no byte order mark. -/
theorem Scan.afterGap_eq_cursor {scan : Scan} {c : Char} {s : List Char}
    (hrest : scan.cursor.rest = c :: s) (hgap : isGap c = false) (hcomment : c ≠ '#')
    (hmark : c ≠ '\uFEFF') : scan.afterGap = scan.cursor := by
  obtain ⟨hspace, htab⟩ := Bool.or_eq_false_iff.mp hgap
  have hrun : (scan.cursor.skipRun fun d =>
      d == ' ' || ((scan.flow || !scan.keyAllowed) && d == '\t')) = scan.cursor := by
    refine Cursor.skipRun_of_not_sees ?_
    rw [Cursor.sees_cons hrest, hspace, htab, Bool.and_false, Bool.or_false]
  have hstays : scan.cursor.isAt '#' = false := by
    rw [Cursor.isAt_cons hrest, beq_eq_false_iff_ne.mpr hcomment]
  unfold afterGap
  rw [if_neg (by simp [Cursor.isAt_cons hrest, hmark])]
  dsimp only
  rw [hrun, Cursor.skipComment_of_not_isAt hstays]

theorem Scan.afterGap_of_canStart {scan : Scan} {c : Char} {s : List Char}
    (hrest : scan.cursor.rest = c :: s) (hc : canStart c = true) :
    scan.afterGap = scan.cursor := by
  simp only [canStart, Bool.and_eq_true, Bool.not_eq_true', bne_iff_ne] at hc
  obtain ⟨⟨⟨⟨hgap, -⟩, hcomment⟩, -⟩, hmark⟩ := hc
  exact afterGap_eq_cursor hrest hgap hcomment hmark

theorem tokens?_of_canStart {c : Char} {s : List Char} {tokens : List Token}
    (hc : canStart c = true) (h : tokens? ⟨.streamStart, c :: s⟩ = some tokens) :
    ∃ token more, tokens = token :: more ∧ token.isDirective = false := by
  let start : Scan := ⟨⟨c :: s, 0, 0, 0⟩, #[], [], none, [], true⟩
  have hgap : start.afterGap = start.cursor := Scan.afterGap_of_canStart rfl hc
  have hbreak : ¬ start.cursor.sees isBreak = true := by
    simp only [canStart, Bool.and_eq_true, Bool.not_eq_true'] at hc
    simp [Cursor.sees_cons (c := start.cursor) rfl, hc]
  have hpercent : c ≠ '%' := by
    rintro rfl
    simp [canStart] at hc
  change Scan.finish? (c :: s).length ((c :: s).length + 1) start = some tokens at h
  rw [Scan.finish?, Scan.toToken_succ, hgap, if_neg hbreak] at h
  obtain ⟨u, hfetch, h⟩ := Option.bind_eq_some_iff.mp
    (show ((start.unroll (some 0)).fetch? (c :: s).length c s).bind
      (Scan.finish? (c :: s).length (c :: s).length) = some tokens from h)
  have hfirst := Scan.gains_of_fetch? (fun h => absurd h hpercent) hfetch
  have hall := hfirst.trans (Scan.gains_of_finish? hfirst.size_le h)
  cases tokens with
  | nil => exact absurd hall.size_le (by simp)
  | cons token more =>
    exact ⟨token, more, rfl, (hall.head? token rfl).resolve_left fun h =>
      absurd h.symm (Option.some_ne_none token)⟩

theorem StartsDocument.opens {text : List Char} (h : StartsDocument text) : OpensDocument text := by
  obtain ⟨c, s, rfl, hc, hstart, hend⟩ := h
  obtain ⟨first, rest, hsegments⟩ := segments_of_start hstart hend
  exact ⟨c :: first, rest, hsegments, fun tokens h => tokens?_of_canStart hc h⟩

end WorkflowRecipes.Yaml
