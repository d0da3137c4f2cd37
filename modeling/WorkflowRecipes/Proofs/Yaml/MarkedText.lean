import WorkflowRecipes.Proofs.Yaml.QuotedText

/-!
# Marker lines between quotes

A stream is cut at its marker lines before scalars are read, so a line between quotes that looks like
a marker cuts the scalar. Only a break that is not escaped starts a line there.

Results:
1. `group_linesWithBreaks`, `segments_eq_singleton`: the first segment ends at the first marker line.
2. `untilMarker_closed`, `untilMarker_open`: a string in quotes is passed, or cut.
-/

namespace WorkflowRecipes.Yaml

/-! ## The first segment -/

/-- A stream up to its first marker line; `start` tells whether a line starts here. -/
def untilMarker : Bool → List Char → List Char
  | _, [] => []
  | start, c :: s =>
    if start && (Marker.ofLine? (c :: s)).isSome then [] else c :: untilMarker (isBreak c) s

theorem isSome_ofLine? {s : List Char} :
    (Marker.ofLine? s).isSome = true ↔
      ∃ rest, (s = '-' :: '-' :: '-' :: rest ∨ s = '.' :: '.' :: '.' :: rest) ∧
        atWordEnd rest = true := by
  constructor
  · intro h
    unfold Marker.ofLine? at h
    split at h
    · next rest =>
      split at h
      · next hend => exact ⟨rest, .inl rfl, hend⟩
      · cases h
    · next rest =>
      split at h
      · next hend => exact ⟨rest, .inr rfl, hend⟩
      · cases h
    · cases h
  · rintro ⟨rest, rfl | rfl, hend⟩ <;> simp [Marker.ofLine?, hend]

theorem linesWithBreaks_of_not_isBreak {c : Char} (h : isBreak c = false) (s : List Char) :
    linesWithBreaks (c :: s) = (c :: (linesWithBreaks s).headD []) :: (linesWithBreaks s).tail := by
  rw [linesWithBreaks, h, if_neg Bool.false_ne_true]
  cases linesWithBreaks s <;> rfl

theorem linesWithBreaks_of_isBreak {c : Char} (h : isBreak c = true) (s : List Char) :
    linesWithBreaks (c :: s) = [c] :: linesWithBreaks s := by
  rw [linesWithBreaks, if_pos h]

theorem flatten_linesWithBreaks (s : List Char) : (linesWithBreaks s).flatten = s := by
  induction s with
  | nil => rfl
  | cons c s ih =>
    cases h : isBreak c with
    | true => rw [linesWithBreaks_of_isBreak h, List.flatten_cons, ih, List.singleton_append]
    | false =>
      rw [linesWithBreaks_of_not_isBreak h, List.flatten_cons]
      cases hlines : linesWithBreaks s with
      | nil => rw [hlines] at ih; rw [← ih]; rfl
      | cons line rest =>
        rw [hlines] at ih
        rw [← ih]
        rfl

theorem headD_append_flatten (s : List Char) :
    (linesWithBreaks s).headD [] ++ (linesWithBreaks s).tail.flatten = s := by
  have hflatten := flatten_linesWithBreaks s
  cases hlines : linesWithBreaks s with
  | nil => rwa [hlines] at hflatten
  | cons line rest => rwa [hlines] at hflatten

theorem atWordEnd_headD (s : List Char) :
    atWordEnd ((linesWithBreaks s).headD []) = atWordEnd s := by
  cases s with
  | nil => rfl
  | cons c s =>
    cases h : isBreak c with
    | true => rw [linesWithBreaks_of_isBreak h]; rfl
    | false => rw [linesWithBreaks_of_not_isBreak h]; rfl

/-- Whether a marker stands at the start of a text shows in its first line: what ends its word is a
break, which ends the line as well. -/
theorem isSome_ofLine?_headD (s : List Char) :
    (Marker.ofLine? ((linesWithBreaks s).headD [])).isSome = (Marker.ofLine? s).isSome := by
  have hmarked : ∀ (d : Char) (rest : List Char), isBreak d = false →
      (linesWithBreaks (d :: d :: d :: rest)).headD [] =
        d :: d :: d :: (linesWithBreaks rest).headD [] := by
    intro d rest hd
    simp only [linesWithBreaks_of_not_isBreak hd, List.headD_cons]
  rw [Bool.eq_iff_iff, isSome_ofLine?, isSome_ofLine?]
  constructor
  · rintro ⟨rest, hline, hend⟩
    have hsame : ∀ d : Char, isBreak d = false →
        (linesWithBreaks s).headD [] = d :: d :: d :: rest →
          ∃ more, s = d :: d :: d :: more ∧ atWordEnd more = true := by
      intro d hd hfirst
      refine ⟨rest ++ (linesWithBreaks s).tail.flatten, ?_⟩
      have hs : s = d :: d :: d :: (rest ++ (linesWithBreaks s).tail.flatten) := by
        rw [← List.cons_append, ← List.cons_append, ← List.cons_append, ← hfirst,
          headD_append_flatten]
      refine ⟨hs, ?_⟩
      rw [hs, hmarked d _ hd] at hfirst
      injection hfirst with _ hfirst
      injection hfirst with _ hfirst
      injection hfirst with _ hfirst
      rw [← atWordEnd_headD, hfirst, hend]
    rcases hline with hline | hline
    · obtain ⟨more, hs, hmore⟩ := hsame '-' rfl hline
      exact ⟨more, .inl hs, hmore⟩
    · obtain ⟨more, hs, hmore⟩ := hsame '.' rfl hline
      exact ⟨more, .inr hs, hmore⟩
  · rintro ⟨rest, rfl | rfl, hend⟩
    · exact ⟨_, .inl (hmarked '-' rest rfl), by rw [atWordEnd_headD, hend]⟩
    · exact ⟨_, .inr (hmarked '.' rest rfl), by rw [atWordEnd_headD, hend]⟩

theorem group_cons_fst (line : List Char) (rest : List (List Char)) :
    (Segment.group (line :: rest)).1 =
      if (Marker.ofLine? line).isSome then [] else line ++ (Segment.group rest).1 := by
  rw [Segment.group]
  cases Marker.ofLine? line <;> rfl

/-- The first segment is the text up to the first marker line. -/
theorem group_linesWithBreaks (s : List Char) :
    (Segment.group (linesWithBreaks s)).1 = untilMarker true s ∧
      (linesWithBreaks s).headD [] ++ (Segment.group (linesWithBreaks s).tail).1 =
        untilMarker false s := by
  induction s with
  | nil => exact ⟨rfl, rfl⟩
  | cons c s ih =>
    obtain ⟨hstart, hinside⟩ := ih
    have hline := isSome_ofLine?_headD (c :: s)
    rw [untilMarker, untilMarker, Bool.false_and, if_neg Bool.false_ne_true, Bool.true_and, ← hline]
    cases h : isBreak c with
    | true =>
      rw [linesWithBreaks_of_isBreak h, group_cons_fst, hstart]
      exact ⟨rfl, congrArg (c :: ·) hstart⟩
    | false =>
      rw [linesWithBreaks_of_not_isBreak h, group_cons_fst, List.headD_cons, List.tail_cons,
        List.cons_append, hinside]
      exact ⟨rfl, rfl⟩

theorem group_snd (lines : List (List Char)) :
    (Segment.group lines).2 = [] ∨ (Segment.group lines).1.length < lines.flatten.length := by
  induction lines with
  | nil => exact .inl rfl
  | cons line rest ih =>
    rw [Segment.group, List.flatten_cons, List.length_append]
    cases hmarker : Marker.ofLine? line with
    | some marker =>
      obtain ⟨behind, hline, -⟩ := isSome_ofLine?.mp (by rw [hmarker]; rfl : _ = true)
      refine .inr ?_
      have hpositive : 0 < line.length := by rcases hline with rfl | rfl <;> exact Nat.succ_pos _
      exact Nat.add_pos_left hpositive _
    | none =>
      refine ih.imp_right fun hlt => ?_
      dsimp only
      rw [List.length_append]
      omega

/-- A stream without marker lines is one segment. -/
theorem segments_eq_singleton {s : List Char} (h : untilMarker true s = s) :
    segments s = [⟨.streamStart, s⟩] := by
  have hfirst := (group_linesWithBreaks s).1
  rw [h] at hfirst
  have hnone := (group_snd (linesWithBreaks s)).resolve_right (by
    rw [hfirst, flatten_linesWithBreaks]
    exact Nat.lt_irrefl _)
  show ⟨.streamStart, (Segment.group (linesWithBreaks s)).1⟩ ::
    (Segment.group (linesWithBreaks s)).2 = _
  rw [hfirst, hnone]

/-! ## Strings in quotes -/

/-- Whether a text starts with a marker that nothing is escaped in. -/
def startsMarker : List Char → Bool
  | '-' :: '-' :: '-' :: c :: _ => isPadding c
  | '.' :: '.' :: '.' :: c :: _ => isPadding c
  | _ => false

/-- Whether a marker line stands in a text that is written in quotes; `start` tells whether a line
starts with it. -/
def hasMarker : Bool → List Char → Bool
  | _, [] => false
  | start, c :: s =>
    (start && startsMarker (c :: s)) || hasMarker (isPadding c && isBreak c) s

theorem jsonChar_ne_nil (c : Char) : Text.jsonChar c ≠ [] := by
  unfold Text.jsonChar
  split
  iterate 7 exact List.cons_ne_nil _ _
  split <;> exact List.cons_ne_nil _ _

theorem eq_of_jsonChar_append {c d : Char} {s t : List Char} (hd : d ≠ '\\')
    (h : Text.jsonChar c ++ s = d :: t) : c = d ∧ s = t := by
  unfold Text.jsonChar at h
  split at h
  iterate 7 exact absurd (List.cons.inj h).1.symm hd
  split at h
  · exact absurd (List.cons.inj h).1.symm hd
  · exact List.cons.inj h

theorem eq_of_flatMap_append {text rest t : List Char} {d : Char} (hd : d ≠ '\\') (hquote : d ≠ '"')
    (h : text.flatMap Text.jsonChar ++ '"' :: rest = d :: t) :
    ∃ s, text = d :: s ∧ s.flatMap Text.jsonChar ++ '"' :: rest = t := by
  cases text with
  | nil => exact absurd (List.cons.inj h).1.symm hquote
  | cons c s =>
    rw [List.flatMap_cons, List.append_assoc] at h
    obtain ⟨rfl, hrest⟩ := eq_of_jsonChar_append hd h
    exact ⟨s, rfl, hrest⟩

theorem atWordEnd_flatMap {text rest : List Char} :
    atWordEnd (text.flatMap Text.jsonChar ++ '"' :: rest) = text.head?.any isPadding := by
  cases text with
  | nil => rfl
  | cons c s =>
    rw [List.flatMap_cons, List.append_assoc, List.head?_cons, Option.any_some]
    cases hc : isPadding c with
    | true =>
      rw [jsonChar_of_isPadding hc]
      show (isGap c || isBreak c) = true
      rw [isGap_eq_not_isBreak hc, Bool.not_or_self]
    | false =>
      have hends := endsPadding_jsonChar hc (s.flatMap Text.jsonChar ++ '"' :: rest)
      obtain ⟨d, t, hd⟩ := List.exists_cons_of_ne_nil (jsonChar_ne_nil c)
      rw [hd, List.cons_append, EndsPadding, List.head?_cons, Option.all_some,
        Bool.not_eq_true'] at hends
      rw [hd, List.cons_append]
      exact hends

theorem startsMarker_iff {text : List Char} :
    startsMarker text = true ↔
      ∃ rest, (text = '-' :: '-' :: '-' :: rest ∨ text = '.' :: '.' :: '.' :: rest) ∧
        rest.head?.any isPadding = true := by
  constructor
  · intro h
    unfold startsMarker at h
    split at h
    · next c rest => exact ⟨c :: rest, .inl rfl, h⟩
    · next c rest => exact ⟨c :: rest, .inr rfl, h⟩
    · cases h
  · rintro ⟨rest, htext, hpadding⟩
    cases rest with
    | nil => cases hpadding
    | cons c rest => rcases htext with rfl | rfl <;> exact hpadding

/-- A line between quotes is a marker line if its text is. -/
theorem isSome_ofLine?_flatMap (text rest : List Char) :
    (Marker.ofLine? (text.flatMap Text.jsonChar ++ '"' :: rest)).isSome = startsMarker text := by
  rw [Bool.eq_iff_iff, isSome_ofLine?, startsMarker_iff]
  constructor
  · rintro ⟨t, hwritten, hend⟩
    have hsame : ∀ d : Char, d ≠ '\\' → d ≠ '"' →
        text.flatMap Text.jsonChar ++ '"' :: rest = d :: d :: d :: t →
          ∃ s, text = d :: d :: d :: s ∧ s.head?.any isPadding = true := by
      intro d hslash hquote h
      obtain ⟨one, htext, hone⟩ := eq_of_flatMap_append hslash hquote h
      obtain ⟨two, rfl, htwo⟩ := eq_of_flatMap_append hslash hquote hone
      obtain ⟨three, rfl, rfl⟩ := eq_of_flatMap_append hslash hquote htwo
      exact ⟨three, htext, atWordEnd_flatMap.symm.trans hend⟩
    rcases hwritten with h | h
    · obtain ⟨s, htext, hpadding⟩ := hsame '-' (by decide) (by decide) h
      exact ⟨s, .inl htext, hpadding⟩
    · obtain ⟨s, htext, hpadding⟩ := hsame '.' (by decide) (by decide) h
      exact ⟨s, .inr htext, hpadding⟩
  · rintro ⟨s, rfl | rfl, hpadding⟩
    · exact ⟨s.flatMap Text.jsonChar ++ '"' :: rest, .inl rfl, atWordEnd_flatMap.trans hpadding⟩
    · exact ⟨s.flatMap Text.jsonChar ++ '"' :: rest, .inr rfl, atWordEnd_flatMap.trans hpadding⟩

/-- The characters of escapes. -/
def escapeChars : List Char := "\"\\nrtbfu0123456789abcdef".toList

theorem mem_escapeChars_of_mem_hexText {width n : Nat} {d : Char} (h : d ∈ Text.hexText width n) :
    d ∈ escapeChars := by
  have hdigit : ∀ k : Fin 16, Text.hexDigit k.val ∈ escapeChars := by decide
  induction width generalizing n with
  | zero => cases h
  | succ width ih =>
    rw [Text.hexText, List.mem_append, List.mem_singleton] at h
    rcases h with h | rfl
    · exact ih h
    · rw [← Json.hexDigit_mod]
      exact hdigit ⟨n % 16, Nat.mod_lt n (by decide)⟩

/-- A character stands for itself or is written with the characters of escapes. -/
theorem mem_jsonChar {c d : Char} (h : d ∈ Text.jsonChar c) :
    (d = c ∧ 0x20 ≤ c.toNat) ∨ d ∈ escapeChars := by
  have hletter : ∀ e ∈ escapeChars, d ∈ ['\\', e] → d ∈ escapeChars := by
    intro e he hd
    rcases List.mem_cons.mp hd with rfl | hd
    · decide
    · rwa [List.mem_singleton.mp hd]
  unfold Text.jsonChar at h
  split at h
  iterate 7 exact .inr (hletter _ (by decide) h)
  split at h
  · rcases List.mem_cons.mp h with rfl | h
    · exact .inr (by decide)
    rcases List.mem_cons.mp h with rfl | h
    · exact .inr (by decide)
    · exact .inr (mem_escapeChars_of_mem_hexText h)
  · next hlarge => exact .inl ⟨List.mem_singleton.mp h, Nat.le_of_not_lt hlarge⟩

/-- What is written for a character that does not fold has no break. -/
theorem isBreak_of_mem_jsonChar {c d : Char} (hc : isPadding c = false)
    (h : d ∈ Text.jsonChar c) : isBreak d = false := by
  rcases mem_jsonChar h with ⟨rfl, hlarge⟩ | h
  · by_contra hbreak
    simp only [isBreak, Bool.not_eq_false, Bool.or_eq_true, beq_iff_eq] at hbreak
    rcases hbreak with (((rfl | rfl) | rfl) | rfl) | rfl
    · exact absurd hlarge (by decide)
    · exact absurd hlarge (by decide)
    all_goals cases hc
  · have hnone : (escapeChars.all fun e => !isBreak e) = true := by decide
    simpa using List.all_eq_true.mp hnone d h

theorem untilMarker_append {w : List Char} (h : ∀ c ∈ w, isBreak c = false) (t : List Char) :
    untilMarker false (w ++ t) = w ++ untilMarker false t := by
  induction w with
  | nil => rfl
  | cons c w ih =>
    obtain ⟨hc, hw⟩ := List.forall_mem_cons.mp h
    rw [List.cons_append, untilMarker, hc, Bool.false_and, if_neg Bool.false_ne_true, ih hw,
      List.cons_append]

/-- A character in quotes is passed unless a marker line starts with it. -/
theorem untilMarker_jsonChar (start : Bool) (c : Char) (t : List Char)
    (h : (start && (Marker.ofLine? (Text.jsonChar c ++ t)).isSome) = false) :
    untilMarker start (Text.jsonChar c ++ t) =
      Text.jsonChar c ++ untilMarker (isPadding c && isBreak c) t := by
  obtain ⟨d, w, hd⟩ := List.exists_cons_of_ne_nil (jsonChar_ne_nil c)
  rw [hd, List.cons_append] at h ⊢
  rw [untilMarker, h, if_neg Bool.false_ne_true]
  cases hc : isPadding c with
  | true =>
    rw [jsonChar_of_isPadding hc] at hd
    obtain ⟨rfl, rfl⟩ := List.cons.inj hd
    rw [Bool.true_and]
    rfl
  | false =>
    have hbreak : ∀ e ∈ d :: w, isBreak e = false := fun e he =>
      isBreak_of_mem_jsonChar hc (hd ▸ he)
    obtain ⟨hfirst, hrest⟩ := List.forall_mem_cons.mp hbreak
    rw [hfirst, untilMarker_append hrest, Bool.false_and, List.cons_append]

/-- A string in quotes without marker lines is passed. -/
theorem untilMarker_closed {start : Bool} {text : List Char} (h : hasMarker start text = false)
    (rest : List Char) :
    untilMarker start (text.flatMap Text.jsonChar ++ '"' :: rest) =
      text.flatMap Text.jsonChar ++ '"' :: untilMarker false rest := by
  induction text generalizing start with
  | nil =>
    have hquote : Marker.ofLine? ('"' :: rest) = none := rfl
    rw [List.flatMap_nil, List.nil_append, untilMarker, hquote, Option.isSome_none, Bool.and_false,
      if_neg Bool.false_ne_true]
    rfl
  | cons c s ih =>
    rw [hasMarker, Bool.or_eq_false_iff, ← isSome_ofLine?_flatMap (c :: s) rest] at h
    obtain ⟨hhere, hbehind⟩ := h
    rw [List.flatMap_cons, List.append_assoc] at hhere ⊢
    rw [untilMarker_jsonChar start c _ hhere, ih hbehind, List.append_assoc]

/-- A string in quotes is cut at its first marker line. -/
theorem untilMarker_open {start : Bool} {text : List Char} (h : hasMarker start text = true)
    (rest : List Char) :
    ∃ before, before <+: text ∧ untilMarker start (text.flatMap Text.jsonChar ++ '"' :: rest) =
      before.flatMap Text.jsonChar := by
  induction text generalizing start with
  | nil => cases h
  | cons c s ih =>
    rw [hasMarker, ← isSome_ofLine?_flatMap (c :: s) rest] at h
    rw [List.flatMap_cons, List.append_assoc] at h ⊢
    cases hhere : (start &&
        (Marker.ofLine? (Text.jsonChar c ++ (s.flatMap Text.jsonChar ++ '"' :: rest))).isSome) with
    | true =>
      refine ⟨[], List.nil_prefix, ?_⟩
      obtain ⟨d, w, hd⟩ := List.exists_cons_of_ne_nil (jsonChar_ne_nil c)
      rw [hd, List.cons_append] at hhere ⊢
      rw [untilMarker, hhere, if_pos rfl]
      rfl
    | false =>
      rw [hhere, Bool.false_or] at h
      obtain ⟨before, hprefix, hcut⟩ := ih h
      refine ⟨c :: before, List.prefix_cons_inj c |>.mpr hprefix, ?_⟩
      rw [untilMarker_jsonChar start c _ hhere, hcut, List.flatMap_cons]

end WorkflowRecipes.Yaml
