import WorkflowRecipes.Proofs.Pattern.Classes
import WorkflowRecipes.Proofs.Pattern.Openings
import WorkflowRecipes.Proofs.Pattern.Stretches

/-!
# Patterns put into a group

A pattern can be tied to the whole of a text by putting what it is written as into a group with an
anchor at each end. What comes out is the same pattern between the ends of a text, unless the text
ends the group with a bracket of its own or takes the bracket of the group into a remark.

Results:
1. `alternatives?_append`: a text is read alike alone and with the end of a group behind it.
2. `closesGroup_of_ofText?_grouped`: a text that is a pattern in the group only ends the group.
3. `ofText?_grouped_eq_some_iff`: what a pattern is in the group.
4. `isIn_anchored`: an anchored pattern is in the texts that the pattern describes as a whole.
-/

namespace WorkflowRecipes

namespace Pattern

variable {α β : Type}

/-! ## Tokens -/

/-- A step of reading alternatives. -/
inductive Token where
  | bar
  | opening (opening : Opening)
  | part (pattern : Pattern)
  | rounds (least : Nat) (most : Option Nat)

/-- The pattern of an escape. -/
def ofEscape (flags : Flags) : Escape → Pattern
  | .char c => literal flags c
  | .kind kind => .one kind
  | .place holds => .between holds

/-- A repetition, or else a character for itself. -/
def repeated? (flags : Flags) (c : Char) (rest : List Char) : Option (Token × List Char) :=
  (repetition? flags (c :: rest)).map fun
    | some (least, most, rest) => (.rounds least most, rest)
    | none => (.part (literal flags c), rest)

/-- The step that a character starts, other than the bracket that ends a group. -/
def token? (flags : Flags) (c : Char) (rest : List Char) : Option (Token × List Char) :=
  match c with
  | '|' => some (.bar, rest)
  | '(' => (opening? flags rest).map fun part => (.opening part.1, part.2)
  | '[' => (class? flags rest).map fun part => (.part (.one part.1), part.2)
  | '\\' => (escape? flags rest).map fun part => (.part (ofEscape flags part.1), part.2)
  | '.' => (dot? flags).map fun dot => (.part dot, rest)
  | '^' => some (.part (startAnchor flags), rest)
  | '$' => some (.part (endAnchor flags), rest)
  | c => repeated? flags c rest

theorem token?_other {c : Char} (h : c ∉ ['|', '(', '[', '\\', '.', '^', '$']) (flags : Flags)
    (rest : List Char) : token? flags c rest = repeated? flags c rest := by
  rw [token?]
  all_goals
    rintro rfl
    exact h (by decide)

theorem settled_reluctant (flags : Flags) (a : α) :
    Settled fun text => some (a, dropReluctant flags text) := by
  constructor
  · rintro text _ _ ⟨⟩
    exact dropReluctant_suffix flags text
  · intro text
    rw [dropReluctant_append]
    rfl

theorem repeated?_other {c : Char} (h : c ∉ ['?', '*', '+', '\x7b']) (flags : Flags)
    (rest : List Char) : repeated? flags c rest = some (.part (literal flags c), rest) := by
  rw [repeated?, repetition?]
  all_goals
    first
    | rfl
    | rintro _ ⟨⟩
      exact h (by decide)

theorem settled_repeated? (flags : Flags) (c : Char) : Settled (repeated? flags c) := by
  by_cases h : c ∈ ['?', '*', '+', '\x7b']
  · simp only [List.mem_cons, List.not_mem_nil, or_false] at h
    rcases h with rfl | rfl | rfl | rfl
    · exact settled_reluctant flags (Token.rounds 0 (some 1))
    · exact settled_reluctant flags (Token.rounds 0 none)
    · exact settled_reluctant flags (Token.rounds 1 none)
    · have hbraces : repeated? flags '\x7b' = fun rest => (boundsPart? flags rest).bind fun part =>
          some (Token.rounds part.1.1 part.1.2, dropReluctant flags part.2) := by
        funext rest
        change ((bounds? flags rest).map _).map _ = _
        rw [bounds?_eq, Option.map_map, Option.map_map, Option.map_eq_bind]
        rfl
      rw [hbraces]
      exact (settled_boundsPart? flags).bind fun bounds =>
        settled_reluctant flags (Token.rounds bounds.1 bounds.2)
  · rw [funext (repeated?_other h flags)]
    exact settled_some _

theorem token?_suffix {flags : Flags} {c : Char} {rest after : List Char} {token : Token}
    (h : token? flags c rest = some (token, after)) : after <:+ rest := by
  unfold token? at h
  split at h
  · cases h
    exact List.suffix_rfl
  · obtain ⟨⟨opening, after⟩, hopening, heq⟩ := Option.map_eq_some_iff.mp h
    cases heq
    exact opening?_suffix hopening
  · obtain ⟨⟨kind, after⟩, hclass, heq⟩ := Option.map_eq_some_iff.mp h
    cases heq
    exact (settled_class? flags).suffix hclass
  · obtain ⟨⟨escape, after⟩, hescape, heq⟩ := Option.map_eq_some_iff.mp h
    cases heq
    obtain ⟨first, more, rfl, hsuffix⟩ := exists_of_escape? hescape
    exact hsuffix.trans (List.suffix_cons first more)
  · obtain ⟨dot, -, heq⟩ := Option.map_eq_some_iff.mp h
    cases heq
    exact List.suffix_rfl
  · cases h
    exact List.suffix_rfl
  · cases h
    exact List.suffix_rfl
  · exact (settled_repeated? flags c).suffix h

/-- What is read into the end of the group takes its bracket. -/
theorem token?_follows (flags : Flags) (c : Char) (rest : List Char) :
    Follows (· <:+ ['$']) (token? flags c rest) (token? flags c (rest ++ Pattern.closing)) := by
  unfold token?
  split
  · exact .same (some (Token.bar, rest))
  · exact (opening?_follows flags rest).map Token.opening
  · exact ((settled_class? flags).follows rest).map fun kind => Token.part (.one kind)
  · exact (escape?_follows flags rest).map fun escape => Token.part (ofEscape flags escape)
  · cases dot? flags with
    | none => exact .same none
    | some dot => exact .same (some (Token.part dot, rest))
  · exact .same (some (Token.part (startAnchor flags), rest))
  · exact .same (some (Token.part (endAnchor flags), rest))
  · exact (settled_repeated? flags c).follows rest

/-- The alternatives behind a step. -/
def resume? (n : Nat) (flags : Flags) (names : List (List Char))
    (done : List (List (Option Pattern))) (parts : List (Option Pattern)) (rest : List Char) :
    Token → Option Reading
  | .bar => alternatives? n flags names (parts :: done) [] rest
  | .opening (.flags inner) => alternatives? n inner names done (none :: parts) rest
  | .opening (.group inner name) =>
    if name.any names.contains then none
    else
      (alternatives? n inner (name.toList ++ names) [] [] rest).bind fun
        | (pattern, names, ')' :: rest) =>
          alternatives? n flags names done (some pattern :: parts) rest
        | _ => none
  | .part pattern => alternatives? n flags names done (some pattern :: parts) rest
  | .rounds least most =>
    match parts with
    | some last :: before =>
      alternatives? n flags names done (some (.times last least most) :: before) rest
    | _ => none

section Alternatives

variable {n m : Nat} {flags : Flags} {names : List (List Char)}
  {done : List (List (Option Pattern))} {parts : List (Option Pattern)} {text rest : List Char}

theorem alternatives?_nil (h : skipSpace flags text = []) :
    alternatives? (n + 1) flags names done parts text =
      some (ofAlternatives (parts :: done), names, []) := by
  rw [alternatives?.eq_def]
  dsimp only
  rw [h]

theorem alternatives?_bracket (h : skipSpace flags text = ')' :: rest) :
    alternatives? (n + 1) flags names done parts text =
      some (ofAlternatives (parts :: done), names, ')' :: rest) := by
  rw [alternatives?.eq_def]
  dsimp only
  rw [h]
  rfl

theorem alternatives?_token {c : Char} (h : skipSpace flags text = c :: rest) (hc : c ≠ ')') :
    alternatives? (n + 1) flags names done parts text =
      (token? flags c rest).bind fun part =>
        resume? n flags names done parts part.2 part.1 := by
  rw [alternatives?.eq_def]
  dsimp only
  rw [h]
  split
  · next heq => cases heq
  · next heq => exact absurd (List.cons.inj heq).1 hc
  · next heq =>
    cases heq
    rfl
  · next heq =>
    cases heq
    change _ = ((opening? flags rest).map _).bind _
    rw [Option.bind_map]
    congr
    funext ⟨opening, rest⟩
    cases opening <;> rfl
  · next heq =>
    cases heq
    change _ = ((class? flags rest).map _).bind _
    rw [Option.bind_map]
    rfl
  · next heq =>
    cases heq
    change _ = ((escape? flags rest).map _).bind _
    rw [Option.bind_map]
    rfl
  · next heq =>
    cases heq
    change _ = ((dot? flags).map _).bind _
    rw [Option.bind_map]
    rfl
  · next heq =>
    cases heq
    rfl
  · next heq =>
    cases heq
    rfl
  · next hbar hopen hclass hescape hdot hstart hend heq =>
    cases heq
    have hother : c ∉ ['|', '(', '[', '\\', '.', '^', '$'] := by
      simp only [List.mem_cons, List.not_mem_nil, or_false, not_or]
      exact ⟨hbar, hopen, hclass, hescape, hdot, hstart, hend⟩
    rw [token?_other hother, repeated?, Option.bind_map]
    congr
    funext bounds
    rcases bounds with _ | ⟨least, most, rest⟩ <;> rfl

/-- What is read of alternatives leaves nothing, or the bracket that ends their group. -/
structure Stops (text : List Char) (reading : Reading) : Prop where
  suffix : reading.2.2 <:+ text
  bracket : reading.2.2 = [] ∨ ∃ rest, reading.2.2 = ')' :: rest

theorem Stops.trans {text text' : List Char} {reading : Reading} (h : Stops text reading)
    (hsuffix : text <:+ text') : Stops text' reading :=
  ⟨h.suffix.trans hsuffix, h.bracket⟩

theorem stops_of_resume? {reading : Reading} {token : Token}
    (ih : ∀ {flags names done parts text reading},
      alternatives? n flags names done parts text = some reading → Stops text reading)
    (h : resume? n flags names done parts rest token = some reading) : Stops rest reading := by
  unfold resume? at h
  split at h
  · exact ih h
  · exact ih h
  · split at h
    · cases h
    · obtain ⟨⟨inner, innerNames, after⟩, hinner, h⟩ := Option.bind_eq_some_iff.mp h
      split at h
      · next heq =>
        cases heq
        exact (ih h).trans ((List.suffix_cons ')' _).trans (ih hinner).suffix)
      · cases h
  · exact ih h
  · split at h
    · exact ih h
    · cases h

theorem stops_of_alternatives? {reading : Reading}
    (h : alternatives? n flags names done parts text = some reading) : Stops text reading := by
  induction n generalizing flags names done parts text reading with
  | zero => cases h
  | succ n ih =>
    have hsuffix := skipSpace_suffix flags text
    cases hskip : skipSpace flags text with
    | nil =>
      rw [alternatives?_nil hskip] at h
      cases h
      exact ⟨List.nil_suffix, .inl rfl⟩
    | cons c rest =>
      rw [hskip] at hsuffix
      by_cases hc : c = ')'
      · subst hc
        rw [alternatives?_bracket hskip] at h
        cases h
        exact ⟨hsuffix, .inr ⟨rest, rfl⟩⟩
      · rw [alternatives?_token hskip hc] at h
        obtain ⟨⟨token, after⟩, htoken, h⟩ := Option.bind_eq_some_iff.mp h
        exact (stops_of_resume? ih h).trans
          ((token?_suffix htoken).trans ((List.suffix_cons c rest).trans hsuffix))

/-- The readings of a text alone and with the end of a group behind it: both refused, the same with
that end left, the same without that end, which a remark has taken, or one that went on into that
end. -/
inductive ReadAlike : Option Reading → Option Reading → Prop
  | refused : ReadAlike none none
  | left (pattern : Pattern) (names : List (List Char)) (rest : List Char) :
      ReadAlike (some (pattern, names, rest)) (some (pattern, names, rest ++ Pattern.closing))
  | spent (pattern : Pattern) (names : List (List Char)) :
      ReadAlike (some (pattern, names, [])) (some (pattern, names, []))
  | late (pattern : Pattern) (names : List (List Char)) :
      ReadAlike none (some (pattern, names, []))

theorem readAlike_late {reading? : Option Reading} (h : rest <:+ ['$'])
    (hstops : ∀ reading ∈ reading?, Stops rest reading) : ReadAlike none reading? := by
  rcases reading? with _ | ⟨pattern, names, after⟩
  · exact .refused
  · have hreading := hstops _ rfl
    obtain heq | ⟨more, heq⟩ := hreading.bracket
    · cases heq
      exact .late pattern names
    · have hsuffix := hreading.suffix.trans h
      rw [heq] at hsuffix
      exact absurd (hsuffix.subset List.mem_cons_self) (by decide)

/-- Behind the same step, the alternatives are read alike. -/
theorem resume?_append {token : Token}
    (ih : ∀ {flags names done parts after}, after <:+ rest →
      ReadAlike (alternatives? n flags names done parts after)
        (alternatives? m flags names done parts (after ++ Pattern.closing))) :
    ReadAlike (resume? n flags names done parts rest token)
      (resume? m flags names done parts (rest ++ Pattern.closing) token) := by
  unfold resume?
  split
  · exact ih List.suffix_rfl
  · exact ih List.suffix_rfl
  · next inner name =>
    split
    · exact .refused
    have hinner : ReadAlike (alternatives? n inner (name.toList ++ names) [] [] rest)
        (alternatives? m inner (name.toList ++ names) [] [] (rest ++ Pattern.closing)) :=
      ih List.suffix_rfl
    have hstops : ∀ reading, alternatives? n inner (name.toList ++ names) [] [] rest = some reading →
        Stops rest reading :=
      fun _ => stops_of_alternatives?
    revert hinner hstops
    generalize alternatives? n inner _ [] [] rest = alone
    generalize alternatives? m inner _ [] [] _ = behind
    intro hinner hstops
    cases hinner with
    | refused => exact .refused
    | left pattern innerNames after =>
      have hafter := hstops _ rfl
      obtain heq | ⟨more, heq⟩ := hafter.bracket <;> cases heq
      · -- The bracket of the group ends the inner group too.
        exact readAlike_late List.suffix_rfl fun _ => stops_of_alternatives?
      · exact ih ((List.suffix_cons ')' more).trans hafter.suffix)
    | spent pattern innerNames => exact .refused
    | late pattern innerNames => exact .refused
  · exact ih List.suffix_rfl
  · split
    · exact ih List.suffix_rfl
    · exact .refused

/-- A text is read alike with the end of a group behind it, whatever was read before. -/
theorem alternatives?_append (hn : text.length < n) (hm : text.length + 2 < m) :
    ReadAlike (alternatives? n flags names done parts text)
      (alternatives? m flags names done parts (text ++ Pattern.closing)) := by
  -- On the steps of the reading alone; the other one has room for the end of the group as well.
  induction n generalizing m flags names done parts text with
  | zero => exact absurd hn (Nat.not_lt_zero _)
  | succ n ih =>
    obtain ⟨m, rfl⟩ := Nat.exists_eq_succ_of_ne_zero (Nat.ne_zero_of_lt hm)
    obtain hbehind | ⟨halone, hbehind⟩ := skipSpace_append flags text
    swap
    · rw [alternatives?_nil halone, alternatives?_nil hbehind]
      exact .spent _ _
    cases hskip : skipSpace flags text with
    | nil =>
      rw [hskip] at hbehind
      rw [alternatives?_nil hskip, alternatives?_bracket hbehind]
      exact .left _ _ []
    | cons c rest =>
      rw [hskip, List.cons_append] at hbehind
      by_cases hc : c = ')'
      · subst hc
        rw [alternatives?_bracket hskip, alternatives?_bracket hbehind]
        exact .left _ _ (')' :: rest)
      have hlength := length_lt_of_skipSpace hskip
      rw [alternatives?_token hskip hc, alternatives?_token hbehind hc]
      obtain htoken | ⟨halone, hlate⟩ := token?_follows flags c rest
      · rw [htoken]
        cases hread : token? flags c rest with
        | none => exact .refused
        | some part =>
          refine resume?_append fun {_ _ _ _ after} hafter => ?_
          have := (hafter.trans (token?_suffix hread)).length_le
          exact ih (by omega) (by omega)
      · rw [halone, Option.bind_none]
        cases hread : token? flags c (rest ++ Pattern.closing) with
        | none => exact .refused
        | some part =>
          exact readAlike_late (hlate part hread) fun reading hreading =>
            stops_of_resume? stops_of_alternatives? hreading

end Alternatives

/-! ## Whole patterns in a group -/

/-- What is read of a whole text. -/
def readAlone (text : String) : Option Reading :=
  alternatives? (text.length + 1) {} [] [] [] text.toList

/-- What is read of a text in the group that anchors it at both ends. -/
def readInGroup (text : String) : Option Reading :=
  alternatives? (text.length + 5) {} [] [] [] (text.toList ++ Pattern.closing)

/-- A text in a group that is anchored at both ends. -/
def grouped (text : String) : String := "^(?:" ++ text ++ ")$"

/-- A pattern between the ends of a text. -/
def anchored (pattern : Pattern) : Pattern :=
  .seq (startAnchor {}) (.seq pattern (endAnchor {}))

/-- A text ends its group with a bracket of its own. -/
def ClosesGroup (text : String) : Prop :=
  ∃ pattern names rest, readAlone text = some (pattern, names, ')' :: rest)

/-- A text takes the bracket of its group for its own: into a remark, if it is a pattern alone. -/
def TakesBracket (text : String) : Prop :=
  ∃ pattern names, readInGroup text = some (pattern, names, [])

theorem readAlike_grouped (text : String) : ReadAlike (readAlone text) (readInGroup text) :=
  alternatives?_append (by rw [String.length_toList]; omega) (by rw [String.length_toList]; omega)

theorem ofText?_eq_some_iff {text : String} {pattern : Pattern} : ofText? text = some pattern ↔
    (∃ names, readAlone text = some (pattern, names, [])) ∧ pattern.unfoldedSize ≤ largest := by
  unfold ofText? readAlone
  split
  · next whole names heq =>
    rw [heq]
    constructor
    · intro h
      split at h
      · next hsize =>
        cases h
        exact ⟨⟨names, rfl⟩, hsize⟩
      · cases h
    · rintro ⟨⟨names, heq⟩, hsize⟩
      cases heq
      exact if_pos hsize
  · next hne =>
    constructor
    · intro h
      cases h
    · rintro ⟨⟨names, heq⟩, -⟩
      exact (hne pattern names heq).elim

/-- What is read of the rest, once the group is read. -/
def readBehind (fuel : Nat) : Reading → Option Reading
  | (pattern, names, ')' :: rest) =>
    alternatives? fuel {} names [] [some pattern, some (startAnchor {})] rest
  | _ => none

theorem readAlone_grouped (text : String) : readAlone (grouped text) =
    (readInGroup text).bind (readBehind (text.length + 5)) := by
  have hlength : (grouped text).length = text.length + 6 := by
    rw [grouped, String.length_append, String.length_append]
    exact Nat.add_right_comm 4 text.length 2 |>.trans (Nat.add_comm 6 text.length)
  have htext : (grouped text).toList =
      '^' :: '(' :: '?' :: ':' :: (text.toList ++ Pattern.closing) := by
    rw [grouped, String.toList_append, String.toList_append]
    rfl
  have hstart : ∀ rest, token? {} '^' rest = some (.part (startAnchor {}), rest) := fun _ => rfl
  have hopen : ∀ rest, token? {} '(' ('?' :: ':' :: rest) =
      some (.opening (.group {} none), rest) := fun _ => rfl
  rw [readAlone, hlength, htext, alternatives?_token rfl (by decide), hstart, Option.bind_some,
    resume?, alternatives?_token rfl (by decide), hopen, Option.bind_some, resume?]
  rfl

theorem readBehind_closing (n : Nat) (pattern : Pattern) (names : List (List Char)) :
    readBehind (n + 2) (pattern, names, Pattern.closing) = some (anchored pattern, names, []) := rfl

theorem unfoldedSize_anchored (pattern : Pattern) :
    (anchored pattern).unfoldedSize = pattern.unfoldedSize + 2 := by
  simp only [anchored, startAnchor, endAnchor, unfoldedSize]
  omega

/-- A text that is no pattern is none in the group either, unless it ends the group itself. -/
theorem closesGroup_of_ofText?_grouped {text : String} (halone : ofText? text = none)
    (hgrouped : (ofText? (grouped text)).isSome = true) : ClosesGroup text := by
  obtain ⟨whole, hwhole⟩ := Option.isSome_iff_exists.mp hgrouped
  obtain ⟨⟨names, hread⟩, hsize⟩ := ofText?_eq_some_iff.mp hwhole
  rw [readAlone_grouped] at hread
  have hstops : ∀ reading, readAlone text = some reading → Stops text.toList reading :=
    fun _ => stops_of_alternatives?
  obtain ⟨⟨pattern, innerNames, after⟩, hgroup, hbehind⟩ := Option.bind_eq_some_iff.mp hread
  have hlike := readAlike_grouped text
  cases hlone : readAlone text with
  | none =>
    rw [hlone, hgroup] at hlike
    cases hlike
    cases hbehind
  | some reading =>
    rw [hlone, hgroup] at hlike
    cases hlike with
    | left pattern names rest =>
      obtain heq | ⟨more, heq⟩ := (hstops _ hlone).bracket
      · cases heq
        rw [List.nil_append, readBehind_closing] at hbehind
        cases hbehind
        rw [unfoldedSize_anchored] at hsize
        rw [ofText?_eq_some_iff.mpr ⟨⟨_, hlone⟩, Nat.le_of_add_right_le hsize⟩] at halone
        cases halone
      · cases heq
        exact ⟨pattern, innerNames, more, hlone⟩
    | spent => cases hbehind

/-- A text that ends its group is no pattern. -/
theorem ofText?_of_closesGroup {text : String} (h : ClosesGroup text) : ofText? text = none := by
  obtain ⟨pattern, names, rest, hread⟩ := h
  rw [Option.eq_none_iff_forall_ne_some]
  intro other hother
  obtain ⟨⟨names', hread'⟩, -⟩ := ofText?_eq_some_iff.mp hother
  rw [hread] at hread'
  cases hread'

/-- What a pattern is in the group: itself between the ends of a text, unless it takes the bracket of
the group or the two ends make it too large. -/
theorem ofText?_grouped_eq_some_iff {text : String} {pattern whole : Pattern}
    (h : ofText? text = some pattern) : ofText? (grouped text) = some whole ↔
      ¬ TakesBracket text ∧ pattern.unfoldedSize + 2 ≤ largest ∧ whole = anchored pattern := by
  obtain ⟨⟨names, hread⟩, -⟩ := ofText?_eq_some_iff.mp h
  have hlike := readAlike_grouped text
  rw [ofText?_eq_some_iff, readAlone_grouped]
  rw [hread] at hlike
  cases hgroup : readInGroup text with
  | none =>
    rw [hgroup] at hlike
    cases hlike
  | some reading =>
    rw [hgroup] at hlike
    cases hlike with
    | left =>
      have hbracket : ¬ TakesBracket text := by
        rintro ⟨_, _, htakes⟩
        rw [hgroup] at htakes
        cases htakes
      rw [List.nil_append, Option.bind_some, readBehind_closing]
      constructor
      · rintro ⟨⟨_, heq⟩, hsize⟩
        cases heq
        exact ⟨hbracket, unfoldedSize_anchored pattern ▸ hsize, rfl⟩
      · rintro ⟨-, hsize, rfl⟩
        exact ⟨⟨names, rfl⟩, unfoldedSize_anchored pattern ▸ hsize⟩
    | spent =>
      constructor
      · rintro ⟨⟨_, heq⟩, -⟩
        cases heq
      · rintro ⟨htakes, -, -⟩
        exact absurd ⟨pattern, names, hgroup⟩ htakes

theorem covers_anchored {pattern : Pattern} {before stretch after : List Char} :
    (anchored pattern).Covers before stretch after ↔
      before = [] ∧ after = [] ∧ pattern.Covers [] stretch [] := by
  have hstart : ∀ {s after}, (startAnchor {}).Covers before s after ↔ s = [] ∧ before = [] := by
    simp [startAnchor, Covers]
  have hend : ∀ {before s}, (endAnchor {}).Covers before s after ↔ s = [] ∧ after = [] := by
    simp [endAnchor, Covers]
  constructor
  · rintro ⟨_, _, rfl, hs, t, _, rfl, hpattern, ht⟩
    obtain ⟨rfl, rfl⟩ := hstart.mp hs
    obtain ⟨rfl, rfl⟩ := hend.mp ht
    refine ⟨rfl, rfl, ?_⟩
    simpa using hpattern
  · rintro ⟨rfl, rfl, hpattern⟩
    refine ⟨[], stretch, rfl, hstart.mpr ⟨rfl, rfl⟩, stretch, [], ?_, ?_, hend.mpr ⟨rfl, rfl⟩⟩
    · exact (List.append_nil stretch).symm
    · exact hpattern

theorem isIn_anchored {pattern : Pattern} {text : String} :
    (anchored pattern).isIn text = true ↔ pattern.Covers [] text.toList [] := by
  rw [isIn, occursIn_iff_covers]
  constructor
  · rintro ⟨before, stretch, after, heq, hcovers⟩
    obtain ⟨rfl, rfl, hpattern⟩ := covers_anchored.mp hcovers
    rw [heq]
    simpa using hpattern
  · intro hpattern
    exact ⟨[], text.toList, [], by simp, covers_anchored.mpr ⟨rfl, rfl, hpattern⟩⟩

end Pattern

end WorkflowRecipes
