import WorkflowRecipes.Proofs.Pattern.Reading

/-!
# Classes read inside a group

A class of characters ends with a bracket of its own. So behind a class that has none the end of a
group does not help, whatever part of a class it is read into; and a class that has one is read the
same with the end of a group behind it.

Results:
1. `classItem?_follows`: what is read into the end of a group leaves no bracket for the class.
2. `bracket_of_classRest?`: a class ends with a bracket of its own.
3. `settled_class?`: a class is read the same with the end of a group behind it.
-/

namespace WorkflowRecipes

namespace Pattern

/-! ## Parts of classes -/

/-- No bracket that closes a class is behind the blanks. -/
def Unclosed (flags : Flags) (text : List Char) : Prop := ']' ∉ skipSpace flags text

theorem Unclosed.of_suffix {flags : Flags} {text rest : List Char} (h : ']' ∉ text)
    (hsuffix : rest <:+ text) : Unclosed flags rest := fun hmem =>
  h (((skipSpace_suffix flags rest).trans hsuffix).subset hmem)

/-- Whether an escape can be a character or kind of a class. -/
def isClassAtom (flags : Flags) : Escape → Bool
  | .char c => flags.unicode || c.toNat < 0x80
  | .kind _ => true
  | .place _ => false

theorem classAtom?_backslash (flags : Flags) (rest : List Char) : classAtom? flags ('\\' :: rest) =
    (escape? flags rest).filter fun part => isClassAtom flags part.1 := by
  unfold classAtom? isClassAtom
  rfl

theorem classAtom?_char {c : Char} (h : c ≠ '\\') (flags : Flags) (rest : List Char) :
    classAtom? flags (c :: rest) =
      (some (Escape.char c, rest)).filter fun part => isClassAtom flags part.1 := by
  unfold classAtom? isClassAtom
  split
  · next heq => cases heq
  · next heq => exact absurd (List.cons.inj heq).1 h
  · next heq =>
    cases heq
    rfl

theorem exists_of_classAtom? {flags : Flags} {text rest : List Char} {atom : Escape}
    (h : classAtom? flags text = some (atom, rest)) :
    ∃ c more, text = c :: more ∧ rest <:+ more := by
  cases text with
  | nil => cases h
  | cons c more =>
    refine ⟨c, more, rfl, ?_⟩
    by_cases hc : c = '\\'
    · subst hc
      rw [classAtom?_backslash] at h
      obtain ⟨first, inner, rfl, hsuffix⟩ := exists_of_escape? (Option.filter_eq_some_iff.mp h).1
      exact hsuffix.trans (List.suffix_cons first inner)
    · rw [classAtom?_char hc] at h
      cases (Option.filter_eq_some_iff.mp h).1
      exact List.suffix_rfl

theorem classAtom?_follows (flags : Flags) {text : List Char} (h : text ≠ []) :
    Follows (· <:+ ['$']) (classAtom? flags text) (classAtom? flags (text ++ Pattern.closing)) := by
  obtain ⟨c, rest, rfl⟩ := List.exists_cons_of_ne_nil h
  rw [List.cons_append]
  by_cases hc : c = '\\'
  · subst hc
    rw [classAtom?_backslash, classAtom?_backslash]
    exact (escape?_follows flags rest).filter _
  · rw [classAtom?_char hc, classAtom?_char hc]
    exact (Follows.same (some (Escape.char c, rest))).filter _

/-- What stands for an escape alone in a class. -/
def aloneKind : Escape → CharKind
  | .char c => (· == c)
  | .kind kind => kind
  | .place _ => fun _ => false

/-- The range from one escape to another, and the rest. -/
def classRange? (first last : Escape) (rest : List Char) : Option (CharKind × List Char) :=
  match first, last with
  | .char a, .char b => if a ≤ b then some (fun c => a ≤ c && c ≤ b, rest) else none
  | _, _ => none

/-- What is made of the first character or kind of an item. -/
def classItemFrom? (flags : Flags) (first : Escape) (rest : List Char) :
    Option (CharKind × List Char) :=
  match skipSpace flags rest with
  | [] => none
  | '-' :: more =>
    match skipSpace flags more with
    | [] => none
    | ']' :: _ => some (aloneKind first, rest)
    | '-' :: _ => some (aloneKind first, rest)
    | next => (classAtom? flags next).bind fun part => classRange? first part.1 part.2
  | _ => some (aloneKind first, rest)

theorem classItem?_eq (flags : Flags) (text : List Char) : classItem? flags text =
    (classAtom? flags text).bind fun part => classItemFrom? flags part.1 part.2 := rfl

theorem classItemFrom?_nil {flags : Flags} {rest : List Char} (h : skipSpace flags rest = [])
    (first : Escape) : classItemFrom? flags first rest = none := by
  rw [classItemFrom?, h]

theorem classItemFrom?_other {flags : Flags} {rest more : List Char} {c : Char}
    (h : skipSpace flags rest = c :: more) (hc : c ≠ '-') (first : Escape) :
    classItemFrom? flags first rest = some (aloneKind first, rest) := by
  rw [classItemFrom?, h]
  split
  · next heq => cases heq
  · next heq => exact absurd (List.cons.inj heq).1 hc
  · rfl

/-- What is made of an item with a dash behind it: the dash starts no range before a bracket or
another dash. -/
def classRangeFrom? (flags : Flags) (first : Escape) (rest : List Char) :
    List Char → Option (CharKind × List Char)
  | [] => none
  | c :: more =>
    if c = ']' ∨ c = '-' then some (aloneKind first, rest)
    else (classAtom? flags (c :: more)).bind fun part => classRange? first part.1 part.2

theorem classItemFrom?_dash {flags : Flags} {rest more : List Char}
    (h : skipSpace flags rest = '-' :: more) (first : Escape) :
    classItemFrom? flags first rest =
      classRangeFrom? flags first rest (skipSpace flags more) := by
  rw [classItemFrom?, h]
  split
  · next heq => cases heq
  · next heq =>
    cases heq
    split
    · next hnext => rw [hnext, classRangeFrom?]
    · next hnext => rw [hnext, classRangeFrom?, if_pos (.inl rfl)]
    · next hnext => rw [hnext, classRangeFrom?, if_pos (.inr rfl)]
    · next hnil hbracket hdash =>
      obtain ⟨c, text, hnext⟩ := List.exists_cons_of_ne_nil hnil
      rw [hnext, classRangeFrom?, if_neg]
      rintro (rfl | rfl)
      · exact hbracket _ hnext
      · exact hdash _ hnext
  · next hne => exact absurd rfl (hne more)

theorem settled_classRange? (first last : Escape) : Settled (classRange? first last) := by
  cases first <;> cases last <;> try exact settled_none
  next a b =>
  by_cases h : a ≤ b
  · have hrange : classRange? (.char a) (.char b) = fun rest => some (_, rest) :=
      funext fun _ => if_pos h
    rw [hrange]
    exact settled_some _
  · have hrange : classRange? (.char a) (.char b) = fun _ => none := funext fun _ => if_neg h
    rw [hrange]
    exact settled_none

theorem classRangeFrom?_suffix {flags : Flags} {first : Escape} {rest text after : List Char}
    {kind : CharKind} (htext : text <:+ rest)
    (h : classRangeFrom? flags first rest text = some (kind, after)) : after <:+ rest := by
  cases text with
  | nil => cases h
  | cons c more =>
    rw [classRangeFrom?] at h
    split at h
    · cases h
      exact List.suffix_rfl
    · obtain ⟨⟨last, rest'⟩, hatom, h⟩ := Option.bind_eq_some_iff.mp h
      obtain ⟨c, more, heq, hsuffix⟩ := exists_of_classAtom? hatom
      rw [heq] at htext
      exact ((settled_classRange? first last).suffix h).trans
        ((hsuffix.trans (List.suffix_cons c more)).trans htext)

theorem classItemFrom?_suffix {flags : Flags} {first : Escape} {rest after : List Char}
    {kind : CharKind} (h : classItemFrom? flags first rest = some (kind, after)) :
    after <:+ rest := by
  cases hskip : skipSpace flags rest with
  | nil =>
    rw [classItemFrom?_nil hskip] at h
    cases h
  | cons c more =>
    by_cases hc : c = '-'
    · subst hc
      rw [classItemFrom?_dash hskip] at h
      refine classRangeFrom?_suffix ((skipSpace_suffix flags more).trans ?_) h
      exact (List.suffix_cons '-' more).trans (hskip ▸ skipSpace_suffix flags rest)
    · rw [classItemFrom?_other hskip hc] at h
      cases h
      exact List.suffix_rfl

/-- An item takes a character. -/
theorem exists_of_classItem? {flags : Flags} {text rest : List Char} {kind : CharKind}
    (h : classItem? flags text = some (kind, rest)) :
    ∃ c more, text = c :: more ∧ rest <:+ more := by
  rw [classItem?_eq] at h
  obtain ⟨⟨first, inner⟩, hatom, hitem⟩ := Option.bind_eq_some_iff.mp h
  obtain ⟨c, more, rfl, hsuffix⟩ := exists_of_classAtom? hatom
  exact ⟨c, more, rfl, (classItemFrom?_suffix hitem).trans hsuffix⟩

theorem unclosed_of_late {flags : Flags} {rest : List Char} (h : rest <:+ ['$']) :
    Unclosed flags rest :=
  Unclosed.of_suffix (by decide) h

/-- Behind a dash, the range goes on into the end of the group. -/
theorem classRangeFrom?_follows (flags : Flags) (first : Escape) (rest text : List Char) :
    Follows (Unclosed flags) (classRangeFrom? flags first rest text)
      (classRangeFrom? flags first (rest ++ Pattern.closing) (text ++ Pattern.closing)) := by
  have hnext : ∀ {text : List Char}, text ≠ [] → Follows (Unclosed flags)
      ((classAtom? flags text).bind fun part => classRange? first part.1 part.2)
      ((classAtom? flags (text ++ Pattern.closing)).bind fun part =>
        classRange? first part.1 part.2) := by
    intro text hne
    refine (classAtom?_follows flags hne).bind ?_ ?_
    · intro last rest
      exact (settled_classRange? first last).follows rest
    · rintro last rest hrest ⟨kind, after⟩ hresult
      exact unclosed_of_late (((settled_classRange? first last).suffix hresult).trans hrest)
  cases text with
  | nil =>
    refine .inr ⟨rfl, ?_⟩
    rintro ⟨kind, after⟩ hresult
    rw [List.nil_append, Pattern.closing, classRangeFrom?, if_neg (by decide)] at hresult
    obtain ⟨⟨last, inner⟩, hatom, hresult⟩ := Option.bind_eq_some_iff.mp hresult
    obtain ⟨c, more, heq, hsuffix⟩ := exists_of_classAtom? hatom
    cases heq
    exact unclosed_of_late (((settled_classRange? first last).suffix hresult).trans hsuffix)
  | cons c more =>
    rw [List.cons_append, classRangeFrom?, classRangeFrom?]
    split
    · exact .same (some (aloneKind first, rest))
    · exact hnext (List.cons_ne_nil c more)

theorem classItemFrom?_follows (flags : Flags) (first : Escape) (rest : List Char) :
    Follows (Unclosed flags) (classItemFrom? flags first rest)
      (classItemFrom? flags first (rest ++ Pattern.closing)) := by
  obtain hbehind | ⟨halone, hbehind⟩ := skipSpace_append flags rest
  · cases hskip : skipSpace flags rest with
    | nil =>
      rw [hskip, List.nil_append] at hbehind
      rw [classItemFrom?_nil hskip, classItemFrom?_other hbehind (by decide)]
      refine .inr ⟨rfl, ?_⟩
      rintro _ ⟨⟩
      show ']' ∉ skipSpace flags (rest ++ Pattern.closing)
      rw [hbehind]
      decide
    | cons c more =>
      rw [hskip, List.cons_append] at hbehind
      by_cases hc : c = '-'
      · subst hc
        rw [classItemFrom?_dash hskip, classItemFrom?_dash hbehind]
        obtain hnext | ⟨hnext, hnext'⟩ := skipSpace_append flags more
        · rw [hnext]
          exact classRangeFrom?_follows flags first rest _
        · rw [hnext, hnext']
          exact .same none
      · rw [classItemFrom?_other hskip hc, classItemFrom?_other hbehind hc]
        exact .same (some (aloneKind first, rest))
  · rw [classItemFrom?_nil halone, classItemFrom?_nil hbehind]
    exact .same none

theorem classItem?_follows (flags : Flags) {text : List Char} (h : text ≠ []) :
    Follows (Unclosed flags) (classItem? flags text)
      (classItem? flags (text ++ Pattern.closing)) := by
  rw [classItem?_eq, classItem?_eq]
  refine (classAtom?_follows flags h).bind (classItemFrom?_follows flags) ?_
  rintro first rest hrest ⟨kind, after⟩ hresult
  exact unclosed_of_late ((classItemFrom?_suffix hresult).trans hrest)

/-! ## Classes -/

theorem setOperation?_of_ne {flags : Flags} {c : Char} {text : List Char}
    (h : c ∉ ['&', '-', '~'] ∨ text.head? ≠ some c) : setOperation? flags (c :: text) = none := by
  unfold setOperation?
  split
  all_goals first | rfl | (next heq => cases heq; simp at h)

theorem settled_setOperation? (flags : Flags) : Settled (setOperation? flags) := by
  constructor
  · intro text operation rest h
    unfold setOperation? at h
    split at h
    any_goals cases h
    all_goals exact (List.suffix_cons _ rest).trans (List.suffix_cons _ _)
  · intro text
    match text with
    | [] => rfl
    | [c] =>
      have halone : setOperation? flags [c] = none := setOperation?_of_ne (.inr nofun)
      have hbehind : setOperation? flags (c :: Pattern.closing) = none := by
        refine setOperation?_of_ne ?_
        by_cases hc : c = ')'
        · subst hc
          exact .inl (by decide)
        · exact .inr fun heq => hc (Option.some.inj heq).symm
      rw [List.singleton_append, halone, hbehind]
      rfl
    | c :: d :: rest =>
      by_cases h : c ∈ ['&', '-', '~'] ∧ d = c
      · obtain ⟨hc, rfl⟩ := h
        simp only [List.mem_cons, List.not_mem_nil, or_false] at hc
        rcases hc with rfl | rfl | rfl <;> rfl
      · have hnone : ∀ rest, setOperation? flags (c :: d :: rest) = none := by
          intro rest
          refine setOperation?_of_ne (Classical.or_iff_not_imp_left.mpr fun hc heq => ?_)
          exact h ⟨Classical.not_not.mp hc, Option.some.inj heq⟩
        rw [List.cons_append, List.cons_append, hnone, hnone]
        rfl

/-- The kind that is named behind a bracket and a colon, and the rest. -/
def namedAt? : List Char → Option (CharKind × List Char)
  | ':' :: more => namedKind? more
  | _ => none

/-- The kind with a name that ends with a colon, and the rest behind the bracket. -/
def posixAt? (negated : Bool) (name : List Char) : List Char → Option (CharKind × List Char)
  | ']' :: rest =>
    (posixKind? (String.ofList name)).map fun kind =>
      (if negated then others kind else kind, rest)
  | _ => none

theorem posixAt?_other {c : Char} (h : c ≠ ']') (negated : Bool) (name rest : List Char) :
    posixAt? negated name (c :: rest) = none := by
  unfold posixAt?
  split
  · next heq => exact absurd (List.cons.inj heq).1 h
  · rfl

theorem namedKind?_eq (text : List Char) : namedKind? text =
    (Text.splitOnce ':' (classHead text).2).bind fun part =>
      posixAt? (classHead text).1 part.1 part.2 := by
  unfold namedKind?
  split
  next negated rest heq =>
  have hhead : classHead text = (negated, rest) := heq
  rw [hhead]
  dsimp only
  split
  · next name after hsplit =>
    rw [hsplit]
    rfl
  · next hne =>
    rcases hsplit : Text.splitOnce ':' rest with _ | ⟨name, _ | ⟨c, after⟩⟩
    · rfl
    · rfl
    · refine (posixAt?_other ?_ negated name after).symm
      rintro rfl
      exact hne name after hsplit

theorem settled_posixAt? (negated : Bool) (name : List Char) :
    Settled (posixAt? negated name) := by
  refine .of_first ']' (by decide) ?_ settled_none ?_
  · unfold posixAt?
    cases posixKind? (String.ofList name) with
    | none => exact settled_none
    | some kind => exact settled_some _
  · rintro (_ | ⟨c, text⟩) h
    · rfl
    · exact posixAt?_other (fun hc => h text (hc ▸ rfl)) negated name text

theorem classHead_append (text : List Char) : classHead (text ++ Pattern.closing) =
    ((classHead text).1, (classHead text).2 ++ Pattern.closing) := by
  cases text with
  | nil => rfl
  | cons c text =>
    by_cases hc : c = '^'
    · subst hc
      rfl
    · have hhead : ∀ rest, classHead (c :: rest) = (false, c :: rest) := by
        intro rest
        unfold classHead
        split
        · next heq => exact absurd (List.cons.inj heq).1 hc
        · rfl
      rw [List.cons_append, hhead, hhead]
      rfl

theorem classHead_suffix (text : List Char) : (classHead text).2 <:+ text := by
  unfold classHead
  split
  · exact List.suffix_cons '^' _
  · exact List.suffix_rfl

theorem settled_namedKind? : Settled namedKind? := by
  have hnamed := fun negated =>
    (settled_splitOnce (by decide : ':' ∉ Pattern.closing)).bind (settled_posixAt? negated)
  constructor
  · intro text kind rest h
    rw [namedKind?_eq] at h
    exact ((hnamed _).suffix h).trans (classHead_suffix text)
  · intro text
    rw [namedKind?_eq, namedKind?_eq, classHead_append]
    exact (hnamed _).closing _

theorem settled_namedAt? : Settled namedAt? := by
  refine .of_first ':' (by decide) settled_namedKind? settled_none ?_
  intro text h
  unfold namedAt?
  split
  · next more => exact absurd rfl (h more)
  · rfl

section Lead

variable {flags : Flags} {n m : Nat} {bare : Bool} {kind : CharKind} {text rest : List Char}

theorem classLead_nil (h : skipSpace flags text = []) :
    classLead flags (n + 1) bare kind text = (kind, []) := by
  rw [classLead, h]

theorem classLead_dash (h : skipSpace flags text = '-' :: rest) :
    classLead flags (n + 1) bare kind text =
      classLead flags n false (fun c => kind c || c == '-') rest := by
  rw [classLead, h]
  rfl

theorem classLead_bracket (h : skipSpace flags text = ']' :: rest) :
    classLead flags (n + 1) bare kind text =
      if bare then (fun c => kind c || c == ']', rest) else (kind, ']' :: rest) := by
  rw [classLead, h]
  rfl

theorem classLead_other {c : Char} (h : skipSpace flags text = c :: rest) (hdash : c ≠ '-')
    (hbracket : c ≠ ']') : classLead flags (n + 1) bare kind text = (kind, c :: rest) := by
  rw [classLead, h]
  split
  · next heq => exact absurd (List.cons.inj heq).1 hdash
  · next heq => exact absurd (List.cons.inj heq).1 hbracket
  · rfl

theorem classLead_suffix : (classLead flags n bare kind text).2 <:+ text := by
  induction n generalizing bare kind text with
  | zero => exact List.suffix_rfl
  | succ n ih =>
    have hsuffix := skipSpace_suffix flags text
    cases hskip : skipSpace flags text with
    | nil =>
      rw [classLead_nil hskip]
      exact List.nil_suffix
    | cons c rest =>
      rw [hskip] at hsuffix
      have hrest : rest <:+ text := (List.suffix_cons c rest).trans hsuffix
      by_cases hdash : c = '-'
      · subst hdash
        rw [classLead_dash hskip]
        exact ih.trans hrest
      · by_cases hbracket : c = ']'
        · subst hbracket
          rw [classLead_bracket hskip]
          split
          · exact hrest
          · exact hsuffix
        · rw [classLead_other hskip hdash hbracket]
          exact hsuffix

/-- The start of a class is read the same, or a remark takes the end of the group. -/
theorem classLead_append (hn : text.length ≤ n) (hm : text.length < m) :
    classLead flags m bare kind (text ++ Pattern.closing) =
        ((classLead flags n bare kind text).1,
          (classLead flags n bare kind text).2 ++ Pattern.closing) ∨
      (classLead flags n bare kind text).2 = [] ∧
        (classLead flags m bare kind (text ++ Pattern.closing)) =
          classLead flags n bare kind text := by
  induction n generalizing m bare kind text with
  | zero =>
    obtain rfl := List.length_eq_zero_iff.mp (Nat.le_zero.mp hn)
    obtain ⟨m, rfl⟩ := Nat.exists_eq_succ_of_ne_zero hm.ne'
    exact .inl (classLead_other (skipSpace_closing flags) (by decide) (by decide))
  | succ n ih =>
    obtain ⟨m, rfl⟩ := Nat.exists_eq_succ_of_ne_zero (Nat.ne_zero_of_lt hm)
    obtain hbehind | ⟨halone, hbehind⟩ := skipSpace_append flags text
    · cases hskip : skipSpace flags text with
      | nil =>
        rw [hskip] at hbehind
        rw [classLead_nil hskip]
        exact .inl (classLead_other hbehind (by decide) (by decide))
      | cons c rest =>
        rw [hskip, List.cons_append] at hbehind
        have hlength := length_lt_of_skipSpace hskip
        by_cases hdash : c = '-'
        · subst hdash
          rw [classLead_dash hskip, classLead_dash hbehind]
          exact ih (by omega) (by omega)
        · by_cases hbracket : c = ']'
          · subst hbracket
            rw [classLead_bracket hskip, classLead_bracket hbehind]
            left
            split <;> rfl
          · rw [classLead_other hskip hdash hbracket, classLead_other hbehind hdash hbracket]
            exact .inl rfl
    · rw [classLead_nil halone, classLead_nil hbehind]
      exact .inr ⟨rfl, rfl⟩

end Lead

theorem suffix_of_setOperation? {flags : Flags} {c : Char} {text rest : List Char}
    {operation : CharKind → Pending}
    (h : setOperation? flags (c :: text) = some (operation, rest)) : rest <:+ text := by
  unfold setOperation? at h
  split at h
  any_goals cases h
  all_goals
    next heq =>
    cases heq
    exact List.suffix_cons _ _

section Rest

variable {flags : Flags} {n m : Nat} {negated : Bool} {pending : Option Pending} {kind : CharKind}
  {item : CharKind} {text rest after : List Char}

/-- The kinds read so far, with the set operation that waits for them. -/
def completed (pending : Option Pending) (kind : CharKind) : CharKind :=
  match pending with
  | some operation => operation kind
  | none => kind

/-- The kind of a class at its bracket, if it can stand in a pattern. -/
def closedKind? (flags : Flags) (negated : Bool) (kind : CharKind) : Option CharKind :=
  let folded := anyCase flags kind
  let kind := if negated then others folded else folded
  if isAdmissible flags kind then some kind else none

/-- The start of a class behind its first bracket, with what the class admits so far. -/
def classStart (flags : Flags) (text : List Char) : (Bool × CharKind) × List Char :=
  let head := classHead text
  let lead := classLead flags head.2.length true (fun _ => false) head.2
  ((head.1, lead.1), lead.2)

/-- A class, read after its first bracket. -/
def classFrom? (flags : Flags) (n : Nat) (text : List Char) : Option (CharKind × List Char) :=
  let start := classStart flags text
  classRest? flags n start.1.1 none start.1.2 start.2

theorem classStart_suffix (flags : Flags) (text : List Char) :
    (classStart flags text).2 <:+ text :=
  classLead_suffix.trans (classHead_suffix text)

theorem classStart_append (flags : Flags) (text : List Char) :
    classStart flags (text ++ Pattern.closing) =
        ((classStart flags text).1, (classStart flags text).2 ++ Pattern.closing) ∨
      (classStart flags text).2 = [] ∧ (classStart flags (text ++ Pattern.closing)).2 = [] := by
  have hlength : (classHead text).2.length < ((classHead text).2 ++ Pattern.closing).length := by
    rw [List.length_append]
    exact Nat.lt_add_of_pos_right (by decide)
  unfold classStart
  rw [classHead_append]
  dsimp only
  obtain h | ⟨halone, hbehind⟩ :=
    @classLead_append flags (classHead text).2.length _ true (fun _ => false) (classHead text).2
      (Nat.le_refl _) hlength
  · exact .inl (by rw [h])
  · exact .inr ⟨halone, hbehind ▸ halone⟩

theorem classRest?_nil (h : skipSpace flags text = []) :
    classRest? flags n negated pending kind text = none := by
  cases n with
  | zero => rfl
  | succ n =>
    rw [classRest?.eq_def]
    dsimp only
    rw [h]

theorem classRest?_bracket (h : skipSpace flags text = ']' :: rest) :
    classRest? flags (n + 1) negated pending kind text =
      (closedKind? flags negated (completed pending kind)).map fun kind => (kind, rest) := by
  rw [classRest?.eq_def]
  dsimp only
  rw [h]
  change (if isAdmissible flags _ then some (_, rest) else none) = _
  unfold closedKind? completed
  dsimp only
  generalize (if negated then _ else _ : CharKind) = closed
  split <;> rfl

theorem classRest?_named {inner : CharKind} (h : skipSpace flags text = '[' :: rest)
    (hnamed : namedAt? rest = some (inner, after)) :
    classRest? flags (n + 1) negated pending kind text =
      classRest? flags n negated pending (fun c => kind c || inner c) after := by
  rw [classRest?.eq_def]
  dsimp only
  rw [h]
  split
  · next heq => cases heq
  · next heq => cases heq
  · next heq =>
    cases heq
    split
    · next heq =>
      cases hnamed.symm.trans heq
      rfl
    · next heq => cases hnamed.symm.trans heq
  · next hopen => exact (hopen rest rfl).elim

theorem classRest?_class (h : skipSpace flags text = '[' :: rest) (hnamed : namedAt? rest = none) :
    classRest? flags (n + 1) negated pending kind text =
      (classFrom? flags n rest).bind fun part =>
        classRest? flags n negated pending (fun c => kind c || part.1 c) part.2 := by
  rw [classRest?.eq_def]
  dsimp only
  rw [h]
  split
  · next heq => cases heq
  · next heq => cases heq
  · next heq =>
    cases heq
    split
    · next heq => cases hnamed.symm.trans heq
    · rfl
  · next hopen => exact (hopen rest rfl).elim

theorem classRest?_operation {c : Char} {operation : CharKind → Pending}
    (h : skipSpace flags text = c :: rest) (hopen : c ≠ '[') (hclose : c ≠ ']')
    (hoperation : setOperation? flags (c :: rest) = some (operation, after)) :
    classRest? flags (n + 1) negated pending kind text =
      classRest? flags n negated (some (operation (completed pending kind))) (fun _ => false)
        after := by
  rw [classRest?.eq_def]
  dsimp only
  rw [h]
  split
  · next heq => cases heq
  · next heq => exact absurd (List.cons.inj heq).1 hclose
  · next heq => exact absurd (List.cons.inj heq).1 hopen
  · rw [hoperation]
    rfl

theorem classRest?_item {c : Char} (h : skipSpace flags text = c :: rest) (hopen : c ≠ '[')
    (hclose : c ≠ ']') (hoperation : setOperation? flags (c :: rest) = none) :
    classRest? flags (n + 1) negated pending kind text =
      (classItem? flags (c :: rest)).bind fun part =>
        classRest? flags n negated pending (fun c => kind c || part.1 c) part.2 := by
  rw [classRest?.eq_def]
  dsimp only
  rw [h]
  split
  · next heq => cases heq
  · next heq => exact absurd (List.cons.inj heq).1 hclose
  · next heq => exact absurd (List.cons.inj heq).1 hopen
  · rw [hoperation]

/-- A class ends with a bracket of its own. -/
theorem bracket_of_classRest?
    (h : classRest? flags n negated pending kind text = some (item, rest)) :
    ']' :: rest <:+ skipSpace flags text := by
  -- Each step goes on with an end of the text, and only a bracket ends the class.
  induction n generalizing negated pending kind text item rest with
  | zero => cases h
  | succ n ih =>
    cases hskip : skipSpace flags text with
    | nil =>
      rw [classRest?_nil hskip] at h
      cases h
    | cons c more =>
      have hgo : ∀ {negated pending kind after},
          classRest? flags n negated pending kind after = some (item, rest) → after <:+ more →
            ']' :: rest <:+ c :: more := by
        intro negated pending kind after hrest hafter
        have hmore := (skipSpace_suffix flags after).trans hafter
        exact ((ih hrest).trans hmore).trans (List.suffix_cons c more)
      by_cases hclose : c = ']'
      · subst hclose
        rw [classRest?_bracket hskip] at h
        obtain ⟨closed, -, heq⟩ := Option.map_eq_some_iff.mp h
        cases heq
        exact List.suffix_rfl
      by_cases hopen : c = '['
      · subst hopen
        cases hnamed : namedAt? more with
        | some part =>
          rw [classRest?_named hskip hnamed] at h
          exact hgo h (settled_namedAt?.suffix hnamed)
        | none =>
          rw [classRest?_class hskip hnamed] at h
          obtain ⟨⟨inner, after⟩, hinner, h⟩ := Option.bind_eq_some_iff.mp h
          have hafter := (List.suffix_cons ']' after).trans ((ih hinner).trans
            ((skipSpace_suffix flags _).trans (classStart_suffix flags more)))
          exact hgo h hafter
      · cases hoperation : setOperation? flags (c :: more) with
        | some part =>
          rw [classRest?_operation hskip hopen hclose hoperation] at h
          exact hgo h (suffix_of_setOperation? hoperation)
        | none =>
          rw [classRest?_item hskip hopen hclose hoperation] at h
          obtain ⟨⟨inner, after⟩, hitem, h⟩ := Option.bind_eq_some_iff.mp h
          obtain ⟨_, _, heq, hafter⟩ := exists_of_classItem? hitem
          cases heq
          exact hgo h hafter

theorem classRest?_of_unclosed (h : Unclosed flags text) :
    classRest? flags n negated pending kind text = none := by
  rw [Option.eq_none_iff_forall_ne_some]
  rintro ⟨item, rest⟩ hrest
  exact h ((bracket_of_classRest? hrest).subset List.mem_cons_self)

theorem classFrom?_suffix (h : classFrom? flags n text = some (item, rest)) : rest <:+ text :=
  (List.suffix_cons ']' rest).trans ((bracket_of_classRest? h).trans
    ((skipSpace_suffix flags _).trans (classStart_suffix flags text)))

theorem classFrom?_append (h : ∀ negated kind rest, rest <:+ text →
    classRest? flags m negated none kind (rest ++ Pattern.closing) =
      (classRest? flags n negated none kind rest).map
        fun part => (part.1, part.2 ++ Pattern.closing)) :
    classFrom? flags m (text ++ Pattern.closing) =
      (classFrom? flags n text).map fun part => (part.1, part.2 ++ Pattern.closing) := by
  unfold classFrom?
  obtain hbehind | ⟨halone, hbehind⟩ := classStart_append flags text
  · rw [hbehind]
    exact h _ _ _ (classStart_suffix flags text)
  · dsimp only
    rw [halone, hbehind, classRest?_nil (skipSpace_nil flags), classRest?_nil (skipSpace_nil flags)]
    rfl

theorem classRest?_append (hn : text.length < n) (hm : text.length + 2 < m) :
    classRest? flags m negated pending kind (text ++ Pattern.closing) =
      (classRest? flags n negated pending kind text).map
        fun part => (part.1, part.2 ++ Pattern.closing) := by
  -- The steps are the same one by one, up to an item that goes on into the end of the group.
  induction n generalizing m negated pending kind text with
  | zero => exact absurd hn (Nat.not_lt_zero _)
  | succ n ih =>
    obtain ⟨m, rfl⟩ := Nat.exists_eq_succ_of_ne_zero (Nat.ne_zero_of_lt hm)
    obtain hbehind | ⟨halone, hbehind⟩ := skipSpace_append flags text
    swap
    · rw [classRest?_nil halone, classRest?_nil hbehind]
      rfl
    cases hskip : skipSpace flags text with
    | nil =>
      have hunclosed : Unclosed flags (text ++ Pattern.closing) := by
        rw [Unclosed, hbehind, hskip]
        decide
      rw [classRest?_nil hskip, classRest?_of_unclosed hunclosed]
      rfl
    | cons c more =>
      rw [hskip, List.cons_append] at hbehind
      have hlength := length_lt_of_skipSpace hskip
      by_cases hclose : c = ']'
      · subst hclose
        rw [classRest?_bracket hskip, classRest?_bracket hbehind, Option.map_map]
        rfl
      by_cases hopen : c = '['
      · subst hopen
        have hnamed' := settled_namedAt?.closing more
        cases hnamed : namedAt? more with
        | some part =>
          rw [hnamed, Option.map_some] at hnamed'
          rw [classRest?_named hskip hnamed, classRest?_named hbehind hnamed']
          have := (settled_namedAt?.suffix hnamed).length_le
          exact ih (by omega) (by omega)
        | none =>
          rw [hnamed, Option.map_none] at hnamed'
          have hfrom : classFrom? flags m (more ++ Pattern.closing) =
              (classFrom? flags n more).map fun part => (part.1, part.2 ++ Pattern.closing) := by
            refine classFrom?_append fun negated kind rest hrest => ?_
            have := hrest.length_le
            exact ih (by omega) (by omega)
          rw [classRest?_class hskip hnamed, classRest?_class hbehind hnamed', hfrom]
          cases hinner : classFrom? flags n more with
          | none => rfl
          | some part =>
            have := (classFrom?_suffix hinner).length_le
            exact ih (by omega) (by omega)
      · have hoperation' := (settled_setOperation? flags).closing (c :: more)
        rw [List.cons_append] at hoperation'
        cases hoperation : setOperation? flags (c :: more) with
        | some part =>
          rw [hoperation, Option.map_some] at hoperation'
          rw [classRest?_operation hskip hopen hclose hoperation,
            classRest?_operation hbehind hopen hclose hoperation']
          have := (suffix_of_setOperation? hoperation).length_le
          exact ih (by omega) (by omega)
        | none =>
          rw [hoperation, Option.map_none] at hoperation'
          rw [classRest?_item hskip hopen hclose hoperation,
            classRest?_item hbehind hopen hclose hoperation', ← List.cons_append]
          obtain hitem | ⟨halone, hlate⟩ := classItem?_follows flags (List.cons_ne_nil c more)
          · rw [hitem]
            cases hinner : classItem? flags (c :: more) with
            | none => rfl
            | some part =>
              obtain ⟨_, _, heq, hsuffix⟩ := exists_of_classItem? hinner
              cases heq
              have := hsuffix.length_le
              exact ih (by omega) (by omega)
          · rw [halone, Option.bind_none, Option.map_none, Option.bind_eq_none_iff]
            exact fun part hpart => classRest?_of_unclosed (hlate part hpart)

theorem class?_eq (flags : Flags) (text : List Char) :
    class? flags text = classFrom? flags ((classStart flags text).2.length + 1) text := rfl

end Rest

/-- A class is read the same with the end of a group behind it. -/
theorem settled_class? (flags : Flags) : Settled (class? flags) := by
  constructor
  · intro text kind rest h
    exact classFrom?_suffix (class?_eq flags text ▸ h)
  · intro text
    rw [class?_eq, class?_eq, classFrom?, classFrom?]
    obtain hbehind | ⟨halone, hbehind⟩ := classStart_append flags text
    · rw [hbehind]
      exact classRest?_append (Nat.lt_succ_self _) (by simp [Pattern.closing])
    · rw [halone, hbehind, classRest?_nil (skipSpace_nil flags),
        classRest?_nil (skipSpace_nil flags)]
      rfl

end Pattern

end WorkflowRecipes
