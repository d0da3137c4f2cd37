import WorkflowRecipes.Proofs.Pattern.Reading

/-!
# Repetition and openings inside a group

The bounds of a repetition end with a brace of their own and are read the same with the end of a
group behind them. What opens a group is read the same too, unless it is a list of flags without an
end, which takes the bracket of the group for its own.

Results:
1. `settled_boundsPart?`: the bounds of a repetition are read the same.
2. `opening?_follows`: flags without an end take the bracket of the group.
-/

namespace WorkflowRecipes

namespace Pattern

variable {α β : Type}

/-! ## Repetition -/

theorem dropWhile_closing {p : Char → Bool} (h : p ')' = false) (text : List Char) :
    (text ++ Pattern.closing).dropWhile p = text.dropWhile p ++ Pattern.closing := by
  rw [List.dropWhile_append]
  split
  · next hnil =>
    rw [List.isEmpty_iff.mp hnil, Pattern.closing, List.dropWhile_cons, h]
    rfl
  · rfl

theorem takeWhile_closing {p : Char → Bool} (h : p ')' = false) (text : List Char) :
    (text ++ Pattern.closing).takeWhile p = text.takeWhile p := by
  rw [List.takeWhile_append]
  split
  · next hall =>
    rw [Pattern.closing, List.takeWhile_cons, h]
    have htext := (List.takeWhile_prefix p (l := text)).eq_of_length hall
    rw [htext]
    exact List.append_nil text
  · rfl

theorem settled_count? : Settled count? := by
  constructor
  · intro text n rest h
    obtain ⟨n, -, heq⟩ := Option.map_eq_some_iff.mp h
    cases heq
    exact (List.dropWhile_suffix _).trans
      ((List.dropWhile_suffix _).trans (List.dropWhile_suffix _))
  · intro text
    unfold count? Text.trimStart
    dsimp only
    rw [dropWhile_closing (by decide), takeWhile_closing (by decide), dropWhile_closing (by decide),
      dropWhile_closing (by decide), Option.map_map]
    rfl

/-- A reader that needs a character, behind blanks. -/
theorem Settled.skipSpace {read : List Char → Option (α × List Char)} (h : Settled read)
    (hnil : read [] = none) (flags : Flags) : Settled fun text => read (skipSpace flags text) := by
  constructor
  · intro text a rest hread
    exact (h.suffix hread).trans (skipSpace_suffix flags text)
  · intro text
    obtain hbehind | ⟨halone, hbehind⟩ := skipSpace_append flags text
    · rw [hbehind]
      exact h.closing _
    · rw [halone, hbehind, hnil]
      rfl

/-- The brace that ends a repetition with two bounds. -/
def boundsEnd? (least most : Nat) (text : List Char) : Option ((Nat × Option Nat) × List Char) :=
  match text with
  | '\x7d' :: rest => if least ≤ most then some ((least, some most), rest) else none
  | _ => none

/-- What follows the comma of a repetition. -/
def boundsUpper? (least : Nat) (text : List Char) : Option ((Nat × Option Nat) × List Char) :=
  match text with
  | '\x7d' :: rest => some ((least, none), rest)
  | _ => (count? text).bind fun part => boundsEnd? least part.1 part.2

/-- What follows the lower bound of a repetition without a brace. -/
def boundsComma? (flags : Flags) (least : Nat) (text : List Char) :
    Option ((Nat × Option Nat) × List Char) :=
  match text with
  | ',' :: rest => boundsUpper? least (skipSpace flags rest)
  | _ => none

/-- What follows the lower bound of a repetition. -/
def boundsLower? (flags : Flags) (least : Nat) (text : List Char) :
    Option ((Nat × Option Nat) × List Char) :=
  match text with
  | '\x7d' :: rest => some ((least, some least), rest)
  | _ => boundsComma? flags least text

/-- The bounds of a repetition, and the rest. -/
def boundsPart? (flags : Flags) (text : List Char) : Option ((Nat × Option Nat) × List Char) :=
  (count? (skipSpace flags text)).bind fun part =>
    boundsLower? flags part.1 (skipSpace flags part.2)

theorem boundsEnd?_other {least most : Nat} {text : List Char}
    (h : ∀ rest, text ≠ '\x7d' :: rest) : boundsEnd? least most text = none := by
  unfold boundsEnd?
  split
  · next rest => exact absurd rfl (h rest)
  · rfl

theorem boundsUpper?_other {least : Nat} {text : List Char} (h : ∀ rest, text ≠ '\x7d' :: rest) :
    boundsUpper? least text =
      (count? text).bind fun part => boundsEnd? least part.1 part.2 := by
  unfold boundsUpper?
  split
  · next rest => exact absurd rfl (h rest)
  · rfl

theorem boundsComma?_other {flags : Flags} {least : Nat} {text : List Char}
    (h : ∀ rest, text ≠ ',' :: rest) : boundsComma? flags least text = none := by
  unfold boundsComma?
  split
  · next rest => exact absurd rfl (h rest)
  · rfl

theorem boundsLower?_other {flags : Flags} {least : Nat} {text : List Char}
    (h : ∀ rest, text ≠ '\x7d' :: rest) :
    boundsLower? flags least text = boundsComma? flags least text := by
  unfold boundsLower?
  split
  · next rest => exact absurd rfl (h rest)
  · rfl

theorem bounds?_eq (flags : Flags) (text : List Char) : bounds? flags text =
    (boundsPart? flags text).map fun part => (part.1.1, part.1.2, part.2) := by
  unfold bounds? boundsPart?
  rw [Option.map_bind]
  congr
  funext ⟨least, rest⟩
  dsimp only [Function.comp_apply]
  split
  · next heq => rw [heq, boundsLower?, Option.map_some]
  · next more heq =>
    rw [heq]
    change _ = (boundsUpper? least (skipSpace flags more)).map _
    split
    · next heq => rw [heq, boundsUpper?, Option.map_some]
    · next hbrace =>
      rw [boundsUpper?_other hbrace, Option.map_bind]
      congr
      funext ⟨most, rest⟩
      dsimp only [Function.comp_apply]
      split
      · unfold boundsEnd?
        split <;> rfl
      · next hbrace =>
        rw [boundsEnd?_other hbrace]
        rfl
  · next hbrace hcomma =>
    rw [boundsLower?_other hbrace, boundsComma?_other hcomma]
    rfl

theorem settled_boundsEnd? (least most : Nat) : Settled (boundsEnd? least most) := by
  refine .of_first '\x7d' (by decide) ?_ settled_none fun _ => boundsEnd?_other
  change Settled fun rest => if least ≤ most then some ((least, some most), rest) else none
  split
  · exact settled_some _
  · exact settled_none

theorem settled_boundsUpper? (least : Nat) : Settled (boundsUpper? least) :=
  .of_first '\x7d' (by decide) (settled_some _)
    (settled_count?.bind (settled_boundsEnd? least)) fun _ => boundsUpper?_other

theorem settled_boundsComma? (flags : Flags) (least : Nat) :
    Settled (boundsComma? flags least) :=
  .of_first ',' (by decide) ((settled_boundsUpper? least).skipSpace rfl flags)
    settled_none fun _ => boundsComma?_other

theorem settled_boundsLower? (flags : Flags) (least : Nat) :
    Settled (boundsLower? flags least) :=
  .of_first '\x7d' (by decide) (settled_some _)
    (settled_boundsComma? flags least) fun _ => boundsLower?_other

theorem settled_boundsPart? (flags : Flags) : Settled (boundsPart? flags) :=
  (settled_count?.skipSpace rfl flags).bind fun least =>
    (settled_boundsLower? flags least).skipSpace rfl flags

theorem dropReluctant_mark {flags : Flags} {text rest : List Char}
    (h : skipSpace flags text = '?' :: rest) : dropReluctant flags text = rest := by
  rw [dropReluctant, h]
  rfl

theorem dropReluctant_other {flags : Flags} {text : List Char}
    (h : ∀ rest, skipSpace flags text ≠ '?' :: rest) : dropReluctant flags text = text := by
  unfold dropReluctant
  split
  · next rest heq => exact absurd heq (h rest)
  · rfl

theorem dropReluctant_append (flags : Flags) (text : List Char) :
    dropReluctant flags (text ++ Pattern.closing) =
      dropReluctant flags text ++ Pattern.closing := by
  obtain hbehind | ⟨halone, hbehind⟩ := skipSpace_append flags text
  · by_cases hmark : ∃ rest, skipSpace flags text = '?' :: rest
    · obtain ⟨rest, hskip⟩ := hmark
      rw [hskip] at hbehind
      rw [dropReluctant_mark hskip, dropReluctant_mark hbehind]
      rfl
    · rw [dropReluctant_other (not_exists.mp hmark), dropReluctant_other]
      intro rest heq
      obtain ⟨rest', hskip, -⟩ := exists_of_append_closing (by decide) (hbehind.symm.trans heq)
      exact hmark ⟨rest', hskip⟩
  · rw [dropReluctant_other (by rw [hbehind]; nofun), dropReluctant_other (by rw [halone]; nofun)]

theorem dropReluctant_suffix (flags : Flags) (text : List Char) :
    dropReluctant flags text <:+ text := by
  unfold dropReluctant
  split
  · next rest heq => exact (List.suffix_cons '?' rest).trans (heq ▸ skipSpace_suffix flags text)
  · exact List.suffix_rfl

/-! ## Groups -/

/-- The flags of a group as what opens it, and the rest. -/
def flagsPart? (flags : Flags) (seen : List Char) (value : Bool) (text : List Char) :
    Option (Opening × List Char) :=
  (groupFlags? flags seen value text).map fun (flags, colon, rest) =>
    (if colon then .group flags none else .flags flags, rest)

theorem flagsPart?_cons {c : Char} (hcolon : c ≠ ':') (hbracket : c ≠ ')') (flags : Flags)
    (seen : List Char) (value : Bool) (rest : List Char) :
    flagsPart? flags seen value (c :: rest) =
      if seen.contains c then none
      else if c == '-' then flagsPart? flags ('-' :: seen) false rest
      else (setFlag? flags c value).bind fun flags => flagsPart? flags (c :: seen) value rest := by
  unfold flagsPart?
  rw [groupFlags?.eq_def]
  split
  · next heq => cases heq
  · next heq => exact absurd (List.cons.inj heq).1 hcolon
  · next heq => exact absurd (List.cons.inj heq).1 hbracket
  · next heq =>
    cases heq
    split
    · rfl
    · split
      · rfl
      · rw [Option.map_bind]
        rfl

theorem flagsPart?_colon (flags : Flags) (seen : List Char) (value : Bool) (rest : List Char) :
    flagsPart? flags seen value (':' :: rest) =
      if seen.head? == some '-' then none else some (.group flags none, rest) := by
  change (if seen.head? == some '-' then none else some (flags, true, rest)).map _ = _
  split <;> rfl

theorem flagsPart?_bracket (flags : Flags) (seen : List Char) (value : Bool) (rest : List Char) :
    flagsPart? flags seen value (')' :: rest) =
      if seen.isEmpty || seen.head? == some '-' then none else some (.flags flags, rest) := by
  change (if seen.isEmpty || seen.head? == some '-' then none
    else some (flags, false, rest)).map _ = _
  split <;> rfl

theorem flagsPart?_suffix {flags : Flags} {seen : List Char} {value : Bool}
    {text rest : List Char} {opening : Opening}
    (h : flagsPart? flags seen value text = some (opening, rest)) :
    rest <:+ text := by
  induction text generalizing flags seen value with
  | nil => cases h
  | cons c text ih =>
    have hcons := List.suffix_cons c text
    by_cases hcolon : c = ':'
    · subst hcolon
      rw [flagsPart?_colon] at h
      split at h <;> cases h
      exact hcons
    by_cases hbracket : c = ')'
    · subst hbracket
      rw [flagsPart?_bracket] at h
      split at h <;> cases h
      exact hcons
    · rw [flagsPart?_cons hcolon hbracket] at h
      split at h
      · cases h
      · split at h
        · exact (ih h).trans hcons
        · obtain ⟨flags, -, h⟩ := Option.bind_eq_some_iff.mp h
          exact (ih h).trans hcons

theorem flagsPart?_follows (flags : Flags) (seen : List Char) (value : Bool) (text : List Char) :
    Follows (· <:+ ['$']) (flagsPart? flags seen value text)
      (flagsPart? flags seen value (text ++ Pattern.closing)) := by
  induction text generalizing flags seen value with
  | nil =>
    refine .inr ⟨rfl, ?_⟩
    rw [List.nil_append, Pattern.closing, flagsPart?_bracket]
    split
    · intro part hpart
      cases hpart
    · rintro _ ⟨⟩
      exact List.suffix_rfl
  | cons c text ih =>
    rw [List.cons_append]
    by_cases hcolon : c = ':'
    · subst hcolon
      rw [flagsPart?_colon, flagsPart?_colon]
      split
      · exact .same none
      · exact .same (some (Opening.group flags none, text))
    by_cases hbracket : c = ')'
    · subst hbracket
      rw [flagsPart?_bracket, flagsPart?_bracket]
      split
      · exact .same none
      · exact .same (some (Opening.flags flags, text))
    · rw [flagsPart?_cons hcolon hbracket, flagsPart?_cons hcolon hbracket]
      split
      · exact .same none
      · split
        · exact ih _ _ _
        · cases setFlag? flags c value with
          | none => exact .same none
          | some flags => exact ih _ _ _

/-- A group that is named up to a bracket, and the rest. -/
def namedGroup? (flags : Flags) (text : List Char) : Option (Opening × List Char) :=
  (Text.splitOnce '>' text).bind fun part =>
    if isGroupName part.1 then some (.group flags (some part.1), part.2) else none

theorem settled_namedGroup? (flags : Flags) : Settled (namedGroup? flags) := by
  have hname : ∀ name, Settled fun rest =>
      if isGroupName name then some (Opening.group flags (some name), rest) else none := by
    intro name
    split
    · exact settled_some _
    · exact settled_none
  exact (settled_splitOnce (by decide)).bind hname

/-- A sign for looking around behind an angle bracket. -/
def LooksBehind (text : List Char) : Prop := text.head? = some '=' ∨ text.head? = some '!'

theorem opening?_looksBehind {text : List Char} (h : LooksBehind text) (flags : Flags) :
    opening? flags ('?' :: '<' :: text) = none := by
  obtain _ | ⟨c, text⟩ := text
  · rcases h with h | h <;> cases h
  · rcases h with h | h <;> cases h <;> rfl

theorem opening?_named {text : List Char} (h : ¬ LooksBehind text) (flags : Flags) :
    opening? flags ('?' :: '<' :: text) = namedGroup? flags text := by
  unfold opening?
  split
  · next heq =>
    cases heq
    exact absurd (.inl rfl) h
  · next heq =>
    cases heq
    exact absurd (.inr rfl) h
  · next heq => cases heq
  · next heq =>
    cases heq
    rfl
  · next hangle heq =>
    cases heq
    exact (hangle text rfl).elim
  · next hmark => exact (hmark _ rfl).elim

theorem opening?_flags {text : List Char} (hangle : ∀ rest, text ≠ '<' :: rest)
    (hP : ∀ rest, text ≠ 'P' :: '<' :: rest) (flags : Flags) :
    opening? flags ('?' :: text) = flagsPart? flags [] true text := by
  unfold opening?
  split
  · next rest heq =>
    cases heq
    exact absurd rfl (hangle _)
  · next heq =>
    cases heq
    exact absurd rfl (hangle _)
  · next heq =>
    cases heq
    exact absurd rfl (hP _)
  · next heq =>
    cases heq
    exact absurd rfl (hangle _)
  · next heq =>
    cases heq
    rfl
  · next hne => exact absurd rfl (hne text)

theorem opening?_plain {text : List Char} (h : ∀ rest, text ≠ '?' :: rest) (flags : Flags) :
    opening? flags text = some (.group flags none, text) := by
  unfold opening?
  split
  any_goals exact absurd rfl (h _)
  rfl

theorem looksBehind_append {text : List Char} :
    LooksBehind (text ++ Pattern.closing) ↔ LooksBehind text := by
  cases text with
  | nil =>
    constructor <;>
    · rintro (h | h) <;> cases h
  | cons c text => exact Iff.rfl

theorem settled_opening?_angle (flags : Flags) :
    Settled fun rest => opening? flags ('?' :: '<' :: rest) := by
  constructor
  · intro text opening rest h
    by_cases hlooks : LooksBehind text
    · rw [opening?_looksBehind hlooks] at h
      cases h
    · rw [opening?_named hlooks] at h
      exact (settled_namedGroup? flags).suffix h
  · intro text
    by_cases hlooks : LooksBehind text
    · rw [opening?_looksBehind hlooks, opening?_looksBehind (looksBehind_append.mpr hlooks)]
      rfl
    · rw [opening?_named hlooks, opening?_named (mt looksBehind_append.mp hlooks)]
      exact (settled_namedGroup? flags).closing text

/-- The ways in which a group opens. -/
theorem opening_cases (text : List Char) :
    (∃ rest, text = '?' :: '<' :: rest) ∨ (∃ rest, text = '?' :: 'P' :: '<' :: rest) ∨
      (∃ rest, text = '?' :: rest ∧ (∀ more, rest ≠ '<' :: more) ∧
        ∀ more, rest ≠ 'P' :: '<' :: more) ∨
      ∀ rest, text ≠ '?' :: rest := by
  by_cases hmark : ∃ rest, text = '?' :: rest
  · obtain ⟨rest, rfl⟩ := hmark
    by_cases hangle : ∃ more, rest = '<' :: more
    · obtain ⟨more, rfl⟩ := hangle
      exact .inl ⟨more, rfl⟩
    by_cases hP : ∃ more, rest = 'P' :: '<' :: more
    · obtain ⟨more, rfl⟩ := hP
      exact .inr (.inl ⟨more, rfl⟩)
    · exact .inr (.inr (.inl ⟨rest, rfl, not_exists.mp hangle, not_exists.mp hP⟩))
  · exact .inr (.inr (.inr (not_exists.mp hmark)))

theorem opening?_suffix {flags : Flags} {text rest : List Char} {opening : Opening}
    (h : opening? flags text = some (opening, rest)) : rest <:+ text := by
  obtain ⟨more, rfl⟩ | ⟨more, rfl⟩ | ⟨more, rfl, hangle, hP⟩ | hplain := opening_cases text
  · exact ((settled_opening?_angle flags).suffix h).trans
      ((List.suffix_cons '<' more).trans (List.suffix_cons '?' _))
  · exact ((settled_namedGroup? flags).suffix h).trans
      ((List.suffix_cons '<' more).trans ((List.suffix_cons 'P' _).trans (List.suffix_cons '?' _)))
  · rw [opening?_flags hangle hP] at h
    exact (flagsPart?_suffix h).trans (List.suffix_cons '?' more)
  · rw [opening?_plain hplain] at h
    cases h
    exact List.suffix_rfl

/-- Flags without a colon or bracket of their own take the bracket of the group. -/
theorem opening?_follows (flags : Flags) (text : List Char) :
    Follows (· <:+ ['$']) (opening? flags text) (opening? flags (text ++ Pattern.closing)) := by
  obtain ⟨more, rfl⟩ | ⟨more, rfl⟩ | ⟨more, rfl, hangle, hP⟩ | hplain := opening_cases text
  · exact (settled_opening?_angle flags).follows more
  · exact (settled_namedGroup? flags).follows more
  · rw [List.cons_append, opening?_flags hangle hP, opening?_flags]
    · exact flagsPart?_follows flags [] true more
    · intro rest heq
      obtain ⟨rest', rfl, -⟩ := exists_of_append_closing (by decide) heq
      exact hangle rest' rfl
    · intro rest heq
      obtain ⟨rest', rfl, heq'⟩ := exists_of_append_closing (by decide) heq
      obtain ⟨rest'', rfl, -⟩ := exists_of_append_closing (by decide) heq'.symm
      exact hP rest'' rfl
  · rw [opening?_plain hplain, opening?_plain]
    · exact .same (some (Opening.group flags none, text))
    · intro rest heq
      obtain ⟨rest', rfl, -⟩ := exists_of_append_closing (by decide) heq
      exact hplain rest' rfl

end Pattern

end WorkflowRecipes
