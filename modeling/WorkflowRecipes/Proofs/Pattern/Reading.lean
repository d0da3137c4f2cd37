import Mathlib.Data.List.Infix
import WorkflowRecipes.Pattern.Reader
import WorkflowRecipes.Proofs.Text.Pieces

/-!
# Patterns read inside a group

A pattern that is put into a group is read with the end of that group behind it. Blanks and
escapes are then read as they are alone, unless they take the end of the group.

Results:
1. `skipSpace_append`: blanks end where they do alone, or a remark takes the end of the group.
2. `settled_escape?`: an escape is read the same once it has its first character.
3. `escape?_follows`: a backslash alone takes the bracket of the group.
-/

namespace WorkflowRecipes

namespace Pattern

/-! ## The end of a group -/

/-- The end of a group and of the text, as they stand behind a pattern that is put into a group. -/
def closing : List Char := [')', '$']

/-- A character before the end of the group stands in the text. -/
theorem exists_of_append_closing {first : Char} {text more : List Char} (hfirst : first ≠ ')')
    (h : text ++ Pattern.closing = first :: more) :
    ∃ rest, text = first :: rest ∧ more = rest ++ Pattern.closing := by
  cases text with
  | nil => exact absurd (List.cons.inj h).1.symm hfirst
  | cons c text =>
    obtain ⟨rfl, rfl⟩ := List.cons.inj h
    exact ⟨text, rfl, rfl⟩

variable {α β : Type}

/-- A reader leaves an end of the text. Where the end of a group stands behind the text, it reads
the same and leaves that end too. -/
structure Settled (read : List Char → Option (α × List Char)) : Prop where
  suffix : ∀ {text a rest}, read text = some (a, rest) → rest <:+ text
  closing : ∀ text, read (text ++ closing) = (read text).map fun part => (part.1, part.2 ++ closing)

theorem settled_none : Settled fun _ => (none : Option (α × List Char)) :=
  ⟨fun h => (by cases h), fun _ => rfl⟩

theorem settled_some (a : α) : Settled fun text => some (a, text) :=
  ⟨fun h => by cases h; exact List.suffix_rfl, fun _ => rfl⟩

/-- Two readers one after the other. -/
theorem Settled.bind {first : List Char → Option (α × List Char)}
    {second : α → List Char → Option (β × List Char)} (h : Settled first)
    (hsecond : ∀ a, Settled (second a)) :
    Settled fun text => (first text).bind fun part => second part.1 part.2 := by
  constructor
  · intro text b rest hread
    obtain ⟨⟨a, middle⟩, hfirst, hread⟩ := Option.bind_eq_some_iff.mp hread
    exact ((hsecond a).suffix hread).trans (h.suffix hfirst)
  · intro text
    rw [h.closing]
    cases first text with
    | none => rfl
    | some part => exact (hsecond part.1).closing part.2

/-- What is read is changed, or refused. -/
theorem Settled.filterMap {first : List Char → Option (α × List Char)} (h : Settled first)
    (f : α → Option β) :
    Settled fun text => (first text).bind fun part => (f part.1).map fun b => (b, part.2) := by
  have hsecond : ∀ a, Settled fun text => (f a).map fun b => (b, text) := by
    intro a
    cases f a with
    | none => exact settled_none
    | some b => exact settled_some b
  exact h.bind hsecond

/-- A text is cut at its first separator, wherever it ends. -/
theorem settled_splitOnce {sep : Char} (h : sep ∉ Pattern.closing) :
    Settled (Text.splitOnce sep) := by
  refine ⟨fun {text before after} hsplit => ?_, Text.splitOnce_append_of_not_mem h⟩
  rw [Text.eq_of_splitOnce hsplit]
  exact (List.suffix_cons sep after).trans (List.suffix_append before _)

/-- Any first character may be read, but not the end of the group. -/
theorem Settled.of_cons {read : List Char → Option (α × List Char)}
    (h : ∀ c, Settled fun rest => read (c :: rest)) (hnil : read [] = none)
    (hclosing : read Pattern.closing = none) : Settled read := by
  constructor
  · rintro (_ | ⟨c, text⟩) a rest hread
    · rw [hnil] at hread
      cases hread
    · exact ((h c).suffix hread).trans (List.suffix_cons c text)
  · rintro (_ | ⟨c, text⟩)
    · rw [List.nil_append, hnil, hclosing]
      rfl
    · exact (h c).closing text

/-- A reader with one way for the texts that start with a certain character and one for the rest. -/
theorem Settled.of_first {read other : List Char → Option (α × List Char)} (first : Char)
    (hfirst : first ≠ ')') (h : Settled fun rest => read (first :: rest))
    (hother : Settled other)
    (heq : ∀ text, (∀ rest, text ≠ first :: rest) → read text = other text) : Settled read := by
  constructor
  · intro text a rest hread
    by_cases hstarts : ∃ more, text = first :: more
    · obtain ⟨more, rfl⟩ := hstarts
      exact (h.suffix hread).trans (List.suffix_cons first more)
    · rw [heq text (not_exists.mp hstarts)] at hread
      exact hother.suffix hread
  · intro text
    by_cases hstarts : ∃ more, text = first :: more
    · obtain ⟨more, rfl⟩ := hstarts
      exact h.closing more
    · have hstarts' : ¬ ∃ more, text ++ Pattern.closing = first :: more := by
        rintro ⟨more, happend⟩
        obtain ⟨rest, rfl, -⟩ := exists_of_append_closing hfirst happend
        exact hstarts ⟨rest, rfl⟩
      rw [heq text (not_exists.mp hstarts), heq _ (not_exists.mp hstarts'), hother.closing]

/-! ## Blanks -/

theorem skipSpace_go_suffix (n : Nat) (text : List Char) : skipSpace.go n text <:+ text := by
  fun_induction skipSpace.go n text with
  | case1 text => exact List.suffix_rfl
  | case2 n rest ih =>
    refine ih.trans (List.IsSuffix.trans ?_ (List.suffix_cons '#' rest))
    exact (List.drop_suffix 1 _).trans (List.dropWhile_suffix _)
  | case3 n c rest _ _ ih => exact ih.trans (List.suffix_cons c rest)
  | case4 n c rest => exact List.suffix_rfl
  | case5 n => exact List.suffix_rfl

theorem skipSpace_suffix (flags : Flags) (text : List Char) : skipSpace flags text <:+ text := by
  unfold skipSpace
  split
  · exact List.suffix_rfl
  · exact skipSpace_go_suffix _ _

theorem skipSpace_go_nil (n : Nat) : skipSpace.go n [] = [] := by
  cases n <;> rfl

theorem skipSpace_go_remark (n : Nat) (rest : List Char) :
    skipSpace.go (n + 1) ('#' :: rest) =
      skipSpace.go n ((rest.dropWhile (· != '\n')).drop 1) := rfl

theorem skipSpace_go_cons {c : Char} (h : c ≠ '#') (n : Nat) (rest : List Char) :
    skipSpace.go (n + 1) (c :: rest) =
      if Text.isBlank c then skipSpace.go n rest else c :: rest := by
  rw [skipSpace.go.eq_def]
  split
  · next heq => cases heq
  · next heq =>
    cases heq
    split
    · next heq' => exact absurd (List.cons.inj heq').1 h
    · next heq' =>
      cases heq'
      rfl
    · next heq' => cases heq'

/-- A remark ends with its line, or else with the text. -/
theorem dropWhile_newline_cases (rest : List Char) :
    (∃ more, more.length < rest.length ∧ rest.dropWhile (· != '\n') = '\n' :: more ∧
      (rest ++ Pattern.closing).dropWhile (· != '\n') = '\n' :: (more ++ Pattern.closing)) ∨
    rest.dropWhile (· != '\n') = [] ∧ (rest ++ Pattern.closing).dropWhile (· != '\n') = [] := by
  induction rest with
  | nil => exact .inr ⟨rfl, rfl⟩
  | cons c rest ih =>
    rw [List.cons_append, List.dropWhile_cons, List.dropWhile_cons, List.length_cons]
    by_cases hc : c = '\n'
    · subst hc
      exact .inl ⟨rest, Nat.lt_succ_self _, rfl, rfl⟩
    · rw [if_pos (bne_iff_ne.mpr hc), if_pos (bne_iff_ne.mpr hc)]
      exact ih.imp (fun ⟨more, hlength, h⟩ => ⟨more, Nat.lt_succ_of_lt hlength, h⟩) id

theorem skipSpace_go_append {n m : Nat} {text : List Char} (hn : text.length ≤ n)
    (hm : text.length < m) :
    skipSpace.go m (text ++ Pattern.closing) = skipSpace.go n text ++ Pattern.closing ∨
      skipSpace.go n text = [] ∧ skipSpace.go m (text ++ Pattern.closing) = [] := by
  induction n generalizing m text with
  | zero =>
    obtain rfl := List.length_eq_zero_iff.mp (Nat.le_zero.mp hn)
    obtain ⟨m, rfl⟩ := Nat.exists_eq_succ_of_ne_zero hm.ne'
    exact .inl rfl
  | succ n ih =>
    obtain ⟨m, rfl⟩ := Nat.exists_eq_succ_of_ne_zero (Nat.ne_zero_of_lt hm)
    cases text with
    | nil => exact .inl rfl
    | cons c rest =>
      rw [List.length_cons] at hn hm
      rw [List.cons_append]
      by_cases hremark : c = '#'
      · subst hremark
        rw [skipSpace_go_remark, skipSpace_go_remark]
        obtain ⟨more, hlength, halone, hbehind⟩ | ⟨halone, hbehind⟩ :=
          dropWhile_newline_cases rest
        · rw [halone, hbehind]
          exact ih (by omega) (by omega)
        · rw [halone, hbehind, List.drop_nil, skipSpace_go_nil, skipSpace_go_nil]
          exact .inr ⟨rfl, rfl⟩
      · rw [skipSpace_go_cons hremark, skipSpace_go_cons hremark]
        split
        · exact ih (by omega) (by omega)
        · exact .inl rfl

/-- Blanks and remarks end where they do without the end of the group, or a remark goes on in it. -/
theorem skipSpace_append (flags : Flags) (text : List Char) :
    skipSpace flags (text ++ Pattern.closing) = skipSpace flags text ++ Pattern.closing ∨
      skipSpace flags text = [] ∧ skipSpace flags (text ++ Pattern.closing) = [] := by
  unfold skipSpace
  split
  · exact .inl rfl
  · exact skipSpace_go_append (Nat.le_refl _) (by simp [Pattern.closing])

/-- A character behind blanks is not among what follows it. -/
theorem length_lt_of_skipSpace {flags : Flags} {text rest : List Char} {c : Char}
    (h : skipSpace flags text = c :: rest) : rest.length < text.length := by
  have hsuffix := skipSpace_suffix flags text
  rw [h] at hsuffix
  exact hsuffix.length_le

theorem skipSpace_nil (flags : Flags) : skipSpace flags [] = [] :=
  List.suffix_nil.mp (skipSpace_suffix flags [])

theorem skipSpace_closing (flags : Flags) : skipSpace flags Pattern.closing = Pattern.closing := by
  unfold skipSpace
  split
  · rfl
  · decide

/-! ## Escapes -/

theorem hexChar?_of_bracket_mem {digits : List Char} (h : ')' ∈ digits) :
    hexChar? digits = none := by
  have hfold : ∀ n : Nat, digits.foldlM (fun n c =>
      if c.isDigit then some (16 * n + (c.toNat - 48))
      else if 'a' ≤ c && c ≤ 'f' then some (16 * n + (c.toNat - 87))
      else if 'A' ≤ c && c ≤ 'F' then some (16 * n + (c.toNat - 55))
      else none) n = none := by
    induction digits with
    | nil => cases h
    | cons c digits ih =>
      intro n
      rw [List.foldlM_cons]
      obtain rfl | h := List.mem_cons.mp h
      · rfl
      · split
        · exact ih h _
        · split
          · exact ih h _
          · split
            · exact ih h _
            · rfl
  rw [hexChar?, hexNumber?, if_neg, hfold]
  · rfl
  · rw [List.isEmpty_iff]
    exact List.ne_nil_of_mem h

theorem settled_hexBraces (flags : Flags) :
    Settled fun rest => (Text.splitOnce '\x7d' rest).bind fun part =>
      (hexChar? (part.1.filter fun c => !(flags.spaced && Text.isBlank c))).map fun c =>
        (Escape.char c, part.2) := by
  have h := (settled_splitOnce (by decide : '\x7d' ∉ Pattern.closing)).filterMap fun digits =>
    (hexChar? (digits.filter fun c => !(flags.spaced && Text.isBlank c))).map Escape.char
  simp only [Option.map_map] at h
  exact h

/-- A character by a number of so many digits. -/
def hexDigits? (flags : Flags) (width : Nat) (text : List Char) : Option (Escape × List Char) :=
  if text.length < width then none
  else (hexChar? (text.take width)).bind fun c =>
    if width = 2 && !flags.unicode && 0x80 ≤ c.toNat then none
    else some (.char c, text.drop width)

theorem settled_hexDigits? (flags : Flags) (width : Nat) : Settled (hexDigits? flags width) := by
  constructor
  · intro text a rest h
    unfold hexDigits? at h
    split at h
    · cases h
    · obtain ⟨c, -, h⟩ := Option.bind_eq_some_iff.mp h
      split at h
      · cases h
      · cases h
        exact List.drop_suffix width text
  · intro text
    unfold hexDigits?
    by_cases hlength : text.length < width
    · -- The digits would be taken from the end of the group, which is none.
      rw [if_pos hlength]
      split
      · rfl
      · rw [hexChar?_of_bracket_mem]
        · rfl
        · obtain ⟨n, hn⟩ := Nat.exists_eq_add_of_lt hlength
          rw [hn, Nat.add_assoc, List.take_length_add_append, Pattern.closing, List.take_succ_cons]
          exact List.mem_append_right _ List.mem_cons_self
    · rw [if_neg hlength, if_neg (by rw [List.length_append]; omega),
        List.take_append_of_le_length (by omega), List.drop_append_of_le_length (by omega)]
      cases hexChar? (text.take width) with
      | none => rfl
      | some c =>
        rw [Option.bind_some, Option.bind_some]
        split <;> rfl

theorem settled_hexEscape? (flags : Flags) (width : Nat) : Settled (hexEscape? flags width) := by
  refine .of_first '\x7b' (by decide) (settled_hexBraces flags)
    (settled_hexDigits? flags width) ?_
  intro text h
  unfold hexEscape? hexDigits?
  split
  · next rest => exact absurd rfl (h rest)
  · rfl

theorem settled_property (flags : Flags) (negated : Bool) (kind? : Option CharKind) :
    Settled fun rest => kind?.bind fun kind =>
      if !flags.unicode then none
      else some (Escape.kind (if negated then others (anyCase flags kind) else anyCase flags kind),
        rest) := by
  cases kind? with
  | none => exact settled_none
  | some kind =>
    cases flags.unicode with
    | true => exact settled_some _
    | false => exact settled_none

/-- The escape for a property that is named in braces, and the rest behind them. -/
def namedProperty? (flags : Flags) (negated : Bool) (name rest : List Char) :
    Option (Escape × List Char) :=
  let finish (kind? : Option CharKind) :=
    kind?.bind fun kind =>
      if !flags.unicode then none
      else some (Escape.kind (if negated then others (anyCase flags kind) else anyCase flags kind),
        rest)
  match Text.splitAt? ['!', '='] name, Text.splitOnce ':' name, Text.splitOnce '=' name with
  | some (property, value), _, _ =>
    if ["gc", "generalcategory"].contains (plainName property) then
      finish ((propertyKind? value).map others)
    else none
  | none, some (property, value), _ | none, none, some (property, value) =>
    if ["gc", "generalcategory"].contains (plainName property) then finish (propertyKind? value)
    else none
  | none, none, none => finish (propertyKind? name)

theorem propertyEscape?_braces (flags : Flags) (negated : Bool) (rest : List Char) :
    propertyEscape? flags negated ('\x7b' :: rest) =
      (Text.splitOnce '\x7d' rest).bind fun part => namedProperty? flags negated part.1 part.2 :=
  rfl

theorem settled_namedProperty? (flags : Flags) (negated : Bool) (name : List Char) :
    Settled (namedProperty? flags negated name) := by
  unfold namedProperty?
  dsimp only
  generalize Text.splitAt? ['!', '='] name = unequal
  generalize Text.splitOnce ':' name = colon
  generalize Text.splitOnce '=' name = equal
  obtain _ | ⟨property, value⟩ := unequal
  · obtain _ | ⟨property, value⟩ := colon
    · obtain _ | ⟨property, value⟩ := equal
      · exact settled_property flags negated _
      · dsimp only
        split
        · exact settled_property flags negated _
        · exact settled_none
    · dsimp only
      split
      · exact settled_property flags negated _
      · exact settled_none
  · dsimp only
    split
    · exact settled_property flags negated _
    · exact settled_none

theorem propertyEscape?_letter {c : Char} (h : c ≠ '\x7b') (flags : Flags) (negated : Bool)
    (rest : List Char) : propertyEscape? flags negated (c :: rest) =
      if c == '\\' then none
      else (propertyKind? [c]).bind fun kind =>
        if !flags.unicode then none
        else some (Escape.kind (if negated then others (anyCase flags kind)
          else anyCase flags kind), rest) := by
  rw [propertyEscape?]
  exact h

theorem settled_propertyEscape? (flags : Flags) (negated : Bool) :
    Settled (propertyEscape? flags negated) := by
  -- No property has the name of a bracket.
  have hname : propertyKind? [')'] = none := by decide +kernel
  refine .of_cons (fun c => ?_) rfl ?_
  · by_cases hc : c = '\x7b'
    · subst hc
      simp only [propertyEscape?_braces]
      exact (settled_splitOnce (by decide)).bind (settled_namedProperty? flags negated)
    · simp only [propertyEscape?_letter hc]
      split
      · exact settled_none
      · exact settled_property flags negated _
  · rw [Pattern.closing, propertyEscape?_letter (by decide), hname]
    rfl

theorem escape?_other {c : Char} (h : c ∉ "xuUpPaftnrvAzB<>b".toList) (flags : Flags)
    (rest : List Char) : escape? flags (c :: rest) =
      match shorthand? flags c.toLower with
      | some kind =>
        if c.isUpper then (if flags.unicode then some (.kind (others kind), rest) else none)
        else some (.kind kind, rest)
      | none => if c.toNat < 0x80 && !c.isAlphanum then some (.char c, rest) else none := by
  rw [escape?]
  all_goals
    first
    | rfl
    | rintro rfl
      exact h (by decide)

theorem settled_wordEdge (flags : Flags) (name : String) :
    Settled fun rest => (wordEdge? flags name).map fun holds => (Escape.place holds, rest) := by
  cases wordEdge? flags name with
  | none => exact settled_none
  | some holds => exact settled_some _

/-- A brace behind `b` starts the name of an edge of a word if a letter or a dash follows. -/
def NamesEdge (rest : List Char) : Prop :=
  ∃ c more, rest = '\x7b' :: c :: more ∧ (c.isAlpha || c == '-') = true

theorem escape?_edge {c : Char} (h : (c.isAlpha || c == '-') = true) (flags : Flags)
    (more : List Char) : escape? flags ('b' :: '\x7b' :: c :: more) =
      (Text.splitOnce '\x7d' (c :: more)).bind fun part =>
        (wordEdge? flags (String.ofList part.1)).map fun holds => (.place holds, part.2) :=
  if_pos h

theorem escape?_border {rest : List Char} (h : ¬ NamesEdge rest) (flags : Flags) :
    escape? flags ('b' :: rest) =
      some (.place fun b n => isWordAt flags b != isWordAt flags n, rest) := by
  by_cases hbrace : ∃ c more, rest = '\x7b' :: c :: more
  · obtain ⟨c, more, rfl⟩ := hbrace
    exact if_neg fun hc => h ⟨c, more, rfl, hc⟩
  · rw [escape?]
    exact fun c more heq => hbrace ⟨c, more, heq⟩

theorem settled_escape?_b (flags : Flags) : Settled fun rest => escape? flags ('b' :: rest) := by
  have hedge := (settled_splitOnce (by decide : '\x7d' ∉ Pattern.closing)).bind fun name =>
    settled_wordEdge flags (String.ofList name)
  constructor
  · intro text a rest h
    by_cases hname : NamesEdge text
    · obtain ⟨c, more, rfl, hc⟩ := hname
      rw [escape?_edge hc] at h
      exact (hedge.suffix h).trans (List.suffix_cons _ _)
    · rw [escape?_border hname] at h
      cases h
      exact List.suffix_rfl
  · intro text
    by_cases hname : NamesEdge text
    · obtain ⟨c, more, rfl, hc⟩ := hname
      rw [List.cons_append, List.cons_append, escape?_edge hc, escape?_edge hc]
      exact hedge.closing (c :: more)
    · have hname' : ¬ NamesEdge (text ++ Pattern.closing) := by
        rintro ⟨c, more, heq, hc⟩
        obtain ⟨rest, rfl, heq'⟩ := exists_of_append_closing (by decide) heq
        have hbracket : c ≠ ')' := by
          rintro rfl
          cases hc
        obtain ⟨rest', rfl, -⟩ := exists_of_append_closing hbracket heq'.symm
        exact hname ⟨c, rest', rfl, hc⟩
      rw [escape?_border hname, escape?_border hname']
      rfl

theorem settled_escape? (flags : Flags) (c : Char) :
    Settled fun rest => escape? flags (c :: rest) := by
  by_cases h : c ∈ "xuUpPaftnrvAzB<>b".toList
  · simp only [String.reduceToList, List.mem_cons, List.not_mem_nil, or_false] at h
    rcases h with rfl | rfl | rfl | rfl | rfl | rfl | rfl | rfl | rfl | rfl | rfl | rfl | rfl | rfl |
      rfl | rfl | rfl
    any_goals exact settled_some _
    · exact settled_hexEscape? flags 2
    · exact settled_hexEscape? flags 4
    · exact settled_hexEscape? flags 8
    · exact settled_propertyEscape? flags false
    · exact settled_propertyEscape? flags true
    · exact settled_escape?_b flags
  · simp only [escape?_other h]
    cases shorthand? flags c.toLower with
    | none =>
      dsimp only
      split
      · exact settled_some _
      · exact settled_none
    | some kind =>
      dsimp only
      split
      · split
        · exact settled_some _
        · exact settled_none
      · exact settled_some _

/-! ## What is read into the end of the group -/

/-- With the end of the group behind the text, the same is read and that end is left too; or nothing
is read of the text alone, and what is read with the end leaves a rest of a certain kind. -/
def Follows (late : List Char → Prop) (alone behind : Option (α × List Char)) : Prop :=
  behind = alone.map (fun part => (part.1, part.2 ++ Pattern.closing)) ∨
    alone = none ∧ ∀ part ∈ behind, late part.2

variable {late late' : List Char → Prop} {alone behind : Option (α × List Char)}

theorem Follows.same (read : Option (α × List Char)) :
    Follows late read (read.map fun part => (part.1, part.2 ++ Pattern.closing)) :=
  .inl rfl

theorem Settled.follows {read : List Char → Option (α × List Char)} (h : Settled read)
    (text : List Char) : Follows late (read text) (read (text ++ Pattern.closing)) :=
  .inl (h.closing text)

theorem Follows.bind (h : Follows late alone behind) {next : α → List Char → Option (β × List Char)}
    (hnext : ∀ a rest, Follows late' (next a rest) (next a (rest ++ Pattern.closing)))
    (hlate : ∀ a rest, late rest → ∀ part ∈ next a rest, late' part.2) :
    Follows late' (alone.bind fun part => next part.1 part.2)
      (behind.bind fun part => next part.1 part.2) := by
  obtain rfl | ⟨rfl, hbehind⟩ := h
  · cases alone with
    | none => exact .same none
    | some part => exact hnext part.1 part.2
  · refine .inr ⟨rfl, fun result hresult => ?_⟩
    obtain ⟨part, hpart, hresult⟩ := Option.bind_eq_some_iff.mp hresult
    exact hlate part.1 part.2 (hbehind part hpart) result hresult

theorem Follows.filter (h : Follows late alone behind) (admits : α → Bool) :
    Follows late (alone.filter fun part => admits part.1)
      (behind.filter fun part => admits part.1) := by
  obtain rfl | ⟨rfl, hbehind⟩ := h
  · cases alone with
    | none => exact .same none
    | some part =>
      rw [Option.map_some, Option.filter_some, Option.filter_some]
      split
      · exact .same (some part)
      · exact .same none
  · refine .inr ⟨rfl, fun part hpart => ?_⟩
    exact hbehind part (Option.filter_eq_some_iff.mp hpart).1

theorem Follows.map (h : Follows late alone behind) (f : α → β) :
    Follows late (alone.map fun part => (f part.1, part.2))
      (behind.map fun part => (f part.1, part.2)) := by
  obtain rfl | ⟨rfl, hbehind⟩ := h
  · refine .inl ?_
    rw [Option.map_map, Option.map_map]
    rfl
  · refine .inr ⟨rfl, fun part hpart => ?_⟩
    obtain ⟨part, hread, rfl⟩ := Option.map_eq_some_iff.mp hpart
    exact hbehind part hread

theorem escape?_closing (flags : Flags) :
    escape? flags Pattern.closing = some (.char ')', ['$']) := by
  have hkind : shorthand? flags (Char.toLower ')') = none := by
    unfold shorthand?
    split <;> rfl
  rw [Pattern.closing, escape?_other (by decide), hkind]
  rfl

/-- An escape takes its first character. -/
theorem exists_of_escape? {flags : Flags} {text rest : List Char} {escape : Escape}
    (h : escape? flags text = some (escape, rest)) :
    ∃ c more, text = c :: more ∧ rest <:+ more := by
  cases text with
  | nil => cases h
  | cons c more => exact ⟨c, more, rfl, (settled_escape? flags c).suffix h⟩

/-- A backslash at the end takes the bracket of the group. -/
theorem escape?_follows (flags : Flags) (text : List Char) :
    Follows (· <:+ ['$']) (escape? flags text) (escape? flags (text ++ Pattern.closing)) := by
  cases text with
  | nil =>
    rw [List.nil_append, escape?_closing]
    refine .inr ⟨rfl, ?_⟩
    rintro _ ⟨⟩
    exact List.suffix_rfl
  | cons c text => exact (settled_escape? flags c).follows text

end Pattern

end WorkflowRecipes
