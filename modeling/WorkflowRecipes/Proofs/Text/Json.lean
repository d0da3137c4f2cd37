import Mathlib.Algebra.Group.Nat.Hom
import WorkflowRecipes.Text.JsonString
import WorkflowRecipes.Text.Search
import WorkflowRecipes.Yaml.ScalarText

/-!
# Reading JSON

`Json.read?` gives the value that a JSON text stands for. It is what the writing of strings, of
naturals, of arrays and of objects is held against.

The fuel of the mutual readers bounds their nested calls. A bracket takes two of them, so twice the
length of the text is enough.

Results:
1. `reads_string`: a string in quotes is read back.
2. `reads_natural`: so is a natural number.
3. `reads_array`, `reads_object`: so is an array or an object whose parts are.
-/

namespace WorkflowRecipes

/-- A JSON value. A number is an integer times a power of ten, and the members of an object are in
order. -/
inductive Json where
  | null
  | bool (value : Bool)
  | number (mantissa exponent : Int)
  | string (value : String)
  | array (items : List Json)
  | object (members : List (String × Json))

namespace Json

/-! ## The reader -/

/-- The characters that may stand between tokens. -/
def isSpace (c : Char) : Bool := c == ' ' || c == '\t' || c == '\n' || c == '\r'

/-- A text without the space at its start. -/
def skipSpace (s : List Char) : List Char := s.dropWhile isSpace

/-- The character that four hexadecimal digits stand for. One beyond the basic plane is written as
two surrogates, each in an escape of its own. -/
def unicode? (s : List Char) : Option (Char × List Char) :=
  (Yaml.hexDigits? 4 0 s).bind fun (high, s) =>
    if 0xD800 ≤ high ∧ high < 0xDC00 then
      match s with
      | '\\' :: 'u' :: s =>
        (Yaml.hexDigits? 4 0 s).bind fun (low, s) =>
          if 0xDC00 ≤ low ∧ low < 0xE000 then
            some (Char.ofNat (0x10000 + 0x400 * (high - 0xD800) + (low - 0xDC00)), s)
          else none
      | _ => none
    else if high.isValidChar then some (Char.ofNat high, s) else none

/-- The character that stands behind a backslash. -/
def escape? : List Char → Option (Char × List Char)
  | '"' :: s => some ('"', s)
  | '\\' :: s => some ('\\', s)
  | '/' :: s => some ('/', s)
  | 'b' :: s => some ('\x08', s)
  | 'f' :: s => some ('\x0c', s)
  | 'n' :: s => some ('\n', s)
  | 'r' :: s => some ('\r', s)
  | 't' :: s => some ('\t', s)
  | 'u' :: s => unicode? s
  | _ => none

/-- The characters of a string up to its closing quote, and what follows it. -/
def stringBody? : Nat → List Char → Option (List Char × List Char)
  | 0, _ => none
  | _ + 1, [] => none
  | n + 1, c :: s =>
    if c = '"' then some ([], s)
    else if c = '\\' then
      (escape? s).bind fun (e, s) => (stringBody? n s).map fun (text, s) => (e :: text, s)
    else if c.toNat < 0x20 then none
    else (stringBody? n s).map fun (text, s) => (c :: text, s)

/-- The digits at the start of a text, of which there must be one, and what follows them. -/
def digits? (s : List Char) : Option (List Char × List Char) :=
  if (s.takeWhile Char.isDigit).isEmpty then none
  else some (s.takeWhile Char.isDigit, s.dropWhile Char.isDigit)

/-- The digits behind a point, if there is one. -/
def fraction? : List Char → Option (List Char × List Char)
  | '.' :: s => digits? s
  | s => some ([], s)

/-- A power of ten behind `e` or `E`, if there is one. -/
def exponent? : List Char → Option (Int × List Char)
  | [] => some (0, [])
  | c :: s =>
    if c = 'e' ∨ c = 'E' then
      let (negative, s) := match s with
        | '-' :: s => (true, s)
        | '+' :: s => (false, s)
        | s => (false, s)
      (digits? s).map fun (digits, s) =>
        let n : Int := Nat.ofDigitChars 10 digits 0
        (if negative then -n else n, s)
    else some (0, c :: s)

/-- A number without its sign; more than one digit before the point must not start with zero. -/
def magnitude? (s : List Char) : Option (Nat × Int × List Char) :=
  (digits? s).bind fun (whole, s) =>
    if whole.head? = some '0' ∧ 1 < whole.length then none
    else
      (fraction? s).bind fun (places, s) =>
        (exponent? s).map fun (exponent, s) =>
          (Nat.ofDigitChars 10 (whole ++ places) 0, exponent - places.length, s)

/-- A number. -/
def number? (s : List Char) : Option (Json × List Char) :=
  match s with
  | '-' :: s => (magnitude? s).map fun (m, e, s) => (.number (-(m : Int)) e, s)
  | s => (magnitude? s).map fun (m, e, s) => (.number m e, s)

/-- A value that is written as a word. -/
def word? (s : List Char) : Option (Json × List Char) :=
  ((Text.dropPrefix? "null".toList s).map (.null, ·)).or <|
    ((Text.dropPrefix? "true".toList s).map (.bool true, ·)).or <|
      (Text.dropPrefix? "false".toList s).map (.bool false, ·)

mutual

/-- A value, and what follows it. -/
def value? : Nat → List Char → Option (Json × List Char)
  | 0, _ => none
  | n + 1, s =>
    match skipSpace s with
    | '"' :: s => (stringBody? (s.length + 1) s).map fun (text, s) => (.string (.ofList text), s)
    | '[' :: s =>
      match skipSpace s with
      | ']' :: s => some (.array [], s)
      | s => (items? n s).map fun (items, s) => (.array items, s)
    | '\x7b' :: s =>
      match skipSpace s with
      | '\x7d' :: s => some (.object [], s)
      | s => (members? n s).map fun (members, s) => (.object members, s)
    | s => (word? s).or (number? s)

/-- The items of an array, of which there is one, up to its bracket. -/
def items? : Nat → List Char → Option (List Json × List Char)
  | 0, _ => none
  | n + 1, s =>
    (value? n s).bind fun (item, s) =>
      match skipSpace s with
      | ',' :: s => (items? n s).map fun (items, s) => (item :: items, s)
      | ']' :: s => some ([item], s)
      | _ => none

/-- The members of an object, of which there is one, up to its brace. -/
def members? : Nat → List Char → Option (List (String × Json) × List Char)
  | 0, _ => none
  | n + 1, s =>
    match skipSpace s with
    | '"' :: s =>
      (stringBody? (s.length + 1) s).bind fun (name, s) =>
        match skipSpace s with
        | ':' :: s =>
          (value? n s).bind fun (value, s) =>
            match skipSpace s with
            | ',' :: s =>
              (members? n s).map fun (members, s) => ((.ofList name, value) :: members, s)
            | '\x7d' :: s => some ([(.ofList name, value)], s)
            | _ => none
        | _ => none
    | _ => none

end

/-- The value of a JSON text. -/
def read? (text : List Char) : Option Json :=
  (value? (2 * text.length + 1) text).bind fun (value, rest) =>
    if (skipSpace rest).isEmpty then some value else none

/-! ## Strings -/

theorem hexDigit_mod (n : Nat) : Text.hexDigit (n % 16) = Text.hexDigit n := by
  unfold Text.hexDigit
  simp only [Nat.mod_mod]

theorem hexValue?_hexDigit (n : Nat) : Yaml.hexValue? (Text.hexDigit n) = some (n % 16) := by
  have hall : ∀ d : Fin 16, Yaml.hexValue? (Text.hexDigit d.val) = some d.val := by decide
  rw [← hexDigit_mod]
  exact hall ⟨n % 16, Nat.mod_lt n (by decide)⟩

theorem hexDigits?_add (a b acc : Nat) (s : List Char) :
    Yaml.hexDigits? (a + b) acc s =
      (Yaml.hexDigits? a acc s).bind fun (value, rest) => Yaml.hexDigits? b value rest := by
  induction a generalizing acc s with
  | zero => rw [Nat.zero_add]; rfl
  | succ a ih =>
    rw [Nat.succ_add]
    cases s with
    | nil => rfl
    | cons c s =>
      simp only [Yaml.hexDigits?, ih]
      cases Yaml.hexValue? c with
      | none => rfl
      | some d => rfl

/-- Digits of base sixteen are read back. -/
theorem hexDigits?_hexText (width n acc : Nat) (rest : List Char) :
    Yaml.hexDigits? width acc (Text.hexText width n ++ rest) =
      some (16 ^ width * acc + n % 16 ^ width, rest) := by
  induction width generalizing n rest with
  | zero => simp [Yaml.hexDigits?, Text.hexText, Nat.mod_one]
  | succ width ih =>
    have hvalue : 16 * (16 ^ width * acc + n / 16 % 16 ^ width) + n % 16 =
        16 ^ (width + 1) * acc + n % 16 ^ (width + 1) := by
      rw [Nat.pow_succ', Nat.mod_mul, Nat.mul_add, Nat.mul_assoc]
      omega
    rw [Text.hexText, List.append_assoc, List.singleton_append, hexDigits?_add, ih,
      Option.bind_some]
    simp only [Yaml.hexDigits?, hexValue?_hexDigit, Option.bind_some, hvalue]

theorem unicode?_hexText {c : Char} (h : c.toNat < 0x20) (rest : List Char) :
    unicode? (Text.hexText 4 c.toNat ++ rest) = some (c, rest) := by
  have hvalue : 16 ^ 4 * 0 + c.toNat % 16 ^ 4 = c.toNat := by omega
  have hplain : ¬ (0xD800 ≤ c.toNat ∧ c.toNat < 0xDC00) := by omega
  have hvalid : c.toNat.isValidChar := .inl (by omega)
  rw [unicode?, hexDigits?_hexText, hvalue, Option.bind_some]
  simp only [if_neg hplain, if_pos hvalid, Char.ofNat_toNat]

/-- A character in quotes is read back. -/
theorem stringBody?_jsonChar (n : Nat) (c : Char) (rest : List Char) :
    stringBody? (n + 1) (Text.jsonChar c ++ rest) =
      (stringBody? n rest).map fun (text, s) => (c :: text, s) := by
  unfold Text.jsonChar
  split
  all_goals try rfl
  next hquote hslash _ _ _ _ _ =>
    split
    · next hcontrol =>
      have hescape : escape? ('u' :: (Text.hexText 4 c.toNat ++ rest)) = some (c, rest) :=
        unicode?_hexText hcontrol rest
      simp only [List.cons_append, stringBody?, hescape]
      rfl
    · next hplain =>
      rw [List.singleton_append, stringBody?, if_neg (by simpa using hquote),
        if_neg (by simpa using hslash), if_neg hplain]

theorem length_le_flatMap (text : List Char) :
    text.length ≤ (text.flatMap Text.jsonChar).length := by
  induction text with
  | nil => exact Nat.le_refl 0
  | cons c text ih =>
    have hchar : 0 < (Text.jsonChar c).length := by
      unfold Text.jsonChar
      split <;> try decide
      split <;> simp
    rw [List.flatMap_cons, List.length_append, List.length_cons]
    omega

/-- A string in quotes is read back. -/
theorem stringBody?_flatMap {n : Nat} {text : List Char} (h : text.length < n)
    (rest : List Char) :
    stringBody? n (text.flatMap Text.jsonChar ++ '"' :: rest) = some (text, rest) := by
  induction text generalizing n with
  | nil =>
    obtain ⟨n, rfl⟩ := Nat.exists_eq_add_of_lt h
    simp [stringBody?]
  | cons c text ih =>
    obtain ⟨m, rfl⟩ : ∃ m, n = m + 1 := ⟨n - 1, by simp at h; omega⟩
    have hm : text.length < m := by simpa using h
    rw [List.flatMap_cons, List.append_assoc, stringBody?_jsonChar, ih hm]
    rfl

/-! ## What can be read -/

/-- Nothing follows, or what ends a value. -/
def IsDelimited (rest : List Char) : Prop := rest.head?.all (fun c => [',', ']', '\x7d'].contains c)

/-- A text is read as a value, whatever delimiter follows. -/
structure Reads (text : List Char) (value : Json) : Prop where
  starts : ∃ c s, text = c :: s ∧ isSpace c = false ∧ c ≠ ']'
  reads : ∀ n rest, IsDelimited rest → 2 * (text ++ rest).length < n →
    value? n (text ++ rest) = some (value, rest)

theorem skipSpace_cons {c : Char} (h : isSpace c = false) (s : List Char) :
    skipSpace (c :: s) = c :: s := by
  simp [skipSpace, h]

theorem read?_of_reads {text : List Char} {value : Json} (h : Reads text value) :
    read? text = some value := by
  have hvalue := h.reads (2 * text.length + 1) [] rfl (by simp)
  rw [List.append_nil] at hvalue
  rw [read?, hvalue]
  rfl

theorem reads_string (text : String) : Reads (jsonQuoted text).toList (.string text) where
  starts := ⟨'"', _, String.toList_ofList, rfl, by decide⟩
  reads := by
    intro n rest _ hn
    obtain ⟨m, rfl⟩ : ∃ m, n = m + 1 := ⟨n - 1, by omega⟩
    have hwritten : (jsonQuoted text).toList ++ rest =
        '"' :: (text.toList.flatMap Text.jsonChar ++ '"' :: rest) := by
      simp [jsonQuoted]
    have hlength := length_le_flatMap text.toList
    have hbody : stringBody? ((text.toList.flatMap Text.jsonChar ++ '"' :: rest).length + 1)
        (text.toList.flatMap Text.jsonChar ++ '"' :: rest) = some (text.toList, rest) :=
      stringBody?_flatMap (by rw [List.length_append]; omega) rest
    rw [hwritten, value?, skipSpace_cons rfl]
    show (stringBody? _ _).map _ = _
    rw [hbody]
    simp

/-! ## Numbers -/

theorem digits?_toDigits (n : Nat) {rest : List Char} (h : IsDelimited rest) :
    digits? (Nat.toDigits 10 n ++ rest) = some (Nat.toDigits 10 n, rest) := by
  have hdigit : ∀ c ∈ Nat.toDigits 10 n, c.isDigit := fun c hc =>
    Nat.isDigit_of_mem_toDigits (by decide) (by decide) hc
  have hrest : rest.takeWhile Char.isDigit = [] ∧ rest.dropWhile Char.isDigit = rest := by
    cases rest with
    | nil => simp
    | cons c rest =>
      have hc : c.isDigit = false := by
        have hc : c = ',' ∨ c = ']' ∨ c = '\x7d' := by simpa [IsDelimited] using h
        rcases hc with rfl | rfl | rfl <;> decide
      simp [hc]
  have htake : (Nat.toDigits 10 n ++ rest).takeWhile Char.isDigit = Nat.toDigits 10 n := by
    rw [List.takeWhile_append_of_pos hdigit, hrest.1, List.append_nil]
  have hdrop : (Nat.toDigits 10 n ++ rest).dropWhile Char.isDigit = rest := by
    rw [List.dropWhile_append_of_pos hdigit, hrest.2]
  rw [digits?, htake, hdrop, if_neg (by simp [Nat.toDigits_ne_nil])]

/-- More than one digit does not start with zero. -/
theorem head?_toDigits (n : Nat) :
    ¬ ((Nat.toDigits 10 n).head? = some '0' ∧ 1 < (Nat.toDigits 10 n).length) := by
  have hpositive : ∀ n, 0 < n → (Nat.toDigits 10 n).head? ≠ some '0' := by
    intro n
    induction n using Nat.strongRecOn with
    | ind n ih =>
      intro hn
      rw [Nat.toDigits_eq_if (by decide)]
      split
      · next hsmall =>
        have hall : ∀ d : Fin 10, 0 < d.val → [Nat.digitChar d.val].head? ≠ some '0' := by decide
        exact hall ⟨n, hsmall⟩ hn
      · rw [List.head?_append, Option.or_of_isSome (by simp)]
        exact ih (n / 10) (by omega) (by omega)
  intro ⟨hzero, hlong⟩
  have hn : n = 0 := Nat.eq_zero_of_not_pos fun hn => hpositive n hn hzero
  subst hn
  simp at hlong

/-- What may follow a value is no part of a number. -/
theorem fraction?_of_isDelimited {rest : List Char} (h : IsDelimited rest) :
    fraction? rest = some ([], rest) := by
  unfold fraction?
  split
  · simp [IsDelimited] at h
  · rfl

theorem exponent?_of_isDelimited {rest : List Char} (h : IsDelimited rest) :
    exponent? rest = some (0, rest) := by
  cases rest with
  | nil => rfl
  | cons c rest =>
    have hc : c = ',' ∨ c = ']' ∨ c = '\x7d' := by simpa [IsDelimited] using h
    have hplain : ¬ (c = 'e' ∨ c = 'E') := by rcases hc with rfl | rfl | rfl <;> decide
    simp only [exponent?, if_neg hplain]

theorem number?_toDigits (n : Nat) {rest : List Char} (h : IsDelimited rest) :
    number? (Nat.toDigits 10 n ++ rest) = some (.number n 0, rest) := by
  have hmagnitude : magnitude? (Nat.toDigits 10 n ++ rest) = some (n, 0, rest) := by
    simp [magnitude?, digits?_toDigits n h, head?_toDigits n, fraction?_of_isDelimited h,
      exponent?_of_isDelimited h, Nat.ofDigitChars_toDigits]
  unfold number?
  split
  · next heq =>
    have hminus : '-' ∈ Nat.toDigits 10 n := by
      cases hdigits : Nat.toDigits 10 n with
      | nil => exact absurd hdigits Nat.toDigits_ne_nil
      | cons c digits =>
        rw [hdigits] at heq
        injection heq with hc
        simp [hc]
    exact absurd (Nat.isDigit_of_mem_toDigits (by decide) (by decide) hminus) (by decide)
  · rw [hmagnitude]
    rfl

theorem ne_of_isDigit {c d : Char} (hc : c.isDigit) (hd : d.isDigit = false) : c ≠ d := by
  rintro rfl
  exact absurd hc (by simp [hd])

theorem isSpace_of_isDigit {c : Char} (h : c.isDigit) : isSpace c = false := by
  simp [isSpace, ne_of_isDigit h]

theorem value?_of_isDigit {c : Char} (h : c.isDigit) (n : Nat) (s : List Char) :
    value? (n + 1) (c :: s) = number? (c :: s) := by
  have hword : word? (c :: s) = none := by
    simp [word?, Text.dropPrefix?, (ne_of_isDigit h _).symm]
  rw [value?, skipSpace_cons (isSpace_of_isDigit h)]
  split
  · next heq => exact absurd (List.cons.inj heq).1 (ne_of_isDigit h rfl)
  · next heq => exact absurd (List.cons.inj heq).1 (ne_of_isDigit h rfl)
  · next heq => exact absurd (List.cons.inj heq).1 (ne_of_isDigit h rfl)
  · rw [hword, Option.none_or]

theorem reads_natural (n : Nat) : Reads (toString n).toList (.number n 0) := by
  rw [Nat.toString_eq_ofList_toDigits, String.toList_ofList]
  obtain ⟨c, digits, hdigits⟩ := List.exists_cons_of_ne_nil (Nat.toDigits_ne_nil (n := n) (b := 10))
  have hc : c.isDigit :=
    Nat.isDigit_of_mem_toDigits (by decide) (by decide) (hdigits ▸ List.mem_cons_self)
  refine ⟨⟨c, digits, hdigits, isSpace_of_isDigit hc, ne_of_isDigit hc rfl⟩, ?_⟩
  intro fuel rest hrest hfuel
  obtain ⟨m, rfl⟩ : ∃ m, fuel = m + 1 := ⟨fuel - 1, by omega⟩
  rw [← number?_toDigits n hrest, hdigits, List.cons_append, value?_of_isDigit hc]

/-! ## Arrays and objects -/

section

variable {α : Type} {text : α → String} {value : α → Json}

/-- Pieces with commas between them are read one by one, up to the mark behind the last. -/
theorem read?_intercalate {β : Type} {read? : Nat → List Char → Option (List β × List Char)}
    {piece : α → List Char} {given : α → β} {close : Char} {xs : List α}
    (hlast : ∀ x ∈ xs, ∀ n rest, 2 * (piece x ++ close :: rest).length < n →
      read? (n + 1) (piece x ++ close :: rest) = some ([given x], rest))
    (hmore : ∀ x ∈ xs, ∀ n s, 2 * (piece x ++ ',' :: s).length < n →
      read? (n + 1) (piece x ++ ',' :: s) =
        (read? n s).map fun (others, rest) => (given x :: others, rest))
    (hne : xs ≠ []) {n : Nat} {rest : List Char}
    (hn : 2 * ([','].intercalate (xs.map piece) ++ close :: rest).length + 1 < n) :
    read? n ([','].intercalate (xs.map piece) ++ close :: rest) = some (xs.map given, rest) := by
  induction xs generalizing n with
  | nil => exact absurd rfl hne
  | cons x xs ih =>
    obtain ⟨m, rfl⟩ : ∃ m, n = m + 1 := ⟨n - 1, by omega⟩
    cases xs with
    | nil =>
      rw [List.map_singleton, List.intercalate_singleton] at hn ⊢
      exact hlast x List.mem_cons_self m rest (by omega)
    | cons y xs =>
      have hsplit : [','].intercalate ((x :: y :: xs).map piece) ++ close :: rest =
          piece x ++ ',' :: ([','].intercalate ((y :: xs).map piece) ++ close :: rest) := by
        simp [List.intercalate_cons_cons]
      rw [hsplit] at hn ⊢
      have hlength := hn
      rw [List.length_append, List.length_cons] at hlength
      rw [hmore x List.mem_cons_self m _ (by omega),
        ih (fun z hz => hlast z (List.mem_cons_of_mem x hz))
          (fun z hz => hmore z (List.mem_cons_of_mem x hz)) (List.cons_ne_nil y xs) (by omega)]
      rfl

theorem items?_intercalate {xs : List α} (h : ∀ x ∈ xs, Reads (text x).toList (value x))
    (hne : xs ≠ []) {n : Nat} {rest : List Char}
    (hn : 2 * ([','].intercalate (xs.map fun x => (text x).toList) ++ ']' :: rest).length + 1 < n) :
    items? n ([','].intercalate (xs.map fun x => (text x).toList) ++ ']' :: rest) =
      some (xs.map value, rest) := by
  refine read?_intercalate (fun x hx n rest hn => ?_) (fun x hx n s hn => ?_) hne hn
  · rw [items?, (h x hx).reads n (']' :: rest) (by simp [IsDelimited]) hn]
    rfl
  · rw [items?, (h x hx).reads n (',' :: s) (by simp [IsDelimited]) hn]
    rfl

theorem value?_bracket {c : Char} (hspace : isSpace c = false) (hc : c ≠ ']') (n : Nat)
    (s : List Char) :
    value? (n + 1) ('[' :: c :: s) =
      (items? n (c :: s)).map fun (items, rest) => (.array items, rest) := by
  rw [value?, skipSpace_cons rfl]
  show (match skipSpace (c :: s) with | ']' :: s => _ | s => _) = _
  rw [skipSpace_cons hspace]
  split
  · next heq => exact absurd (List.cons.inj heq).1 hc
  · rfl

theorem intercalate_cons_append (sep : List Char) (piece : List Char) (pieces : List (List Char))
    (rest : List Char) :
    ∃ behind, sep.intercalate (piece :: pieces) ++ rest = piece ++ behind := by
  cases pieces with
  | nil => exact ⟨rest, by simp⟩
  | cons next pieces =>
    exact ⟨sep ++ (sep.intercalate (next :: pieces) ++ rest), by simp [List.intercalate_cons_cons]⟩

/-- An array is read back if its items are. -/
theorem reads_array {xs : List α} (h : ∀ x ∈ xs, Reads (text x).toList (value x)) :
    Reads ("[" ++ ",".intercalate (xs.map text) ++ "]").toList (.array (xs.map value)) := by
  have hwritten : ("[" ++ ",".intercalate (xs.map text) ++ "]").toList =
      '[' :: ([','].intercalate (xs.map fun x => (text x).toList) ++ [']']) := by
    simp [String.toList_intercalate]
    rfl
  rw [hwritten]
  refine ⟨⟨'[', _, rfl, rfl, by decide⟩, ?_⟩
  intro fuel rest _ hfuel
  obtain ⟨m, rfl⟩ : ∃ m, fuel = m + 1 := ⟨fuel - 1, by omega⟩
  rw [List.cons_append, List.append_assoc, List.singleton_append] at hfuel ⊢
  cases xs with
  | nil => rfl
  | cons x xs =>
    rw [List.length_cons] at hfuel
    have hitems : items? m ([','].intercalate ((x :: xs).map fun x => (text x).toList) ++
        ']' :: rest) = some ((x :: xs).map value, rest) :=
      items?_intercalate h (List.cons_ne_nil x xs) (by omega)
    obtain ⟨c, s, htext, hspace, hc⟩ := (h x List.mem_cons_self).starts
    obtain ⟨behind, hstarts⟩ : ∃ behind, [','].intercalate ((x :: xs).map fun x => (text x).toList) ++
        ']' :: rest = (text x).toList ++ behind := intercalate_cons_append ..
    rw [htext, List.cons_append] at hstarts
    rw [hstarts, value?_bracket hspace hc, ← hstarts, hitems]
    rfl

/-- The text of a member of an object. -/
def memberText (text : α → String) (member : String × α) : String :=
  jsonQuoted member.1 ++ ":" ++ text member.2

theorem toList_memberText (member : String × α) :
    (memberText text member).toList =
      '"' :: (member.1.toList.flatMap Text.jsonChar ++ '"' :: ':' :: (text member.2).toList) := by
  simp [memberText, jsonQuoted]

/-- What is read of the rest of an object behind the value of a member. -/
theorem members?_memberText {n : Nat} {member : String × α}
    (h : Reads (text member.2).toList (value member.2)) {rest : List Char}
    (hrest : IsDelimited rest) (hn : 2 * ((memberText text member).toList ++ rest).length < n) :
    members? (n + 1) ((memberText text member).toList ++ rest) =
      match skipSpace rest with
      | ',' :: s =>
        (members? n s).map fun (members, s) => ((member.1, value member.2) :: members, s)
      | '\x7d' :: s => some ([(member.1, value member.2)], s)
      | _ => none := by
  have hbody : ∀ s, stringBody? ((member.1.toList.flatMap Text.jsonChar ++ '"' :: s).length + 1)
      (member.1.toList.flatMap Text.jsonChar ++ '"' :: s) = some (member.1.toList, s) := by
    intro s
    have hlength := length_le_flatMap member.1.toList
    exact stringBody?_flatMap (by rw [List.length_append]; omega) s
  rw [toList_memberText, List.cons_append, List.append_assoc, List.cons_append, List.cons_append]
    at hn ⊢
  simp only [List.length_cons, List.length_append] at hn
  rw [members?, skipSpace_cons rfl]
  show (stringBody? _ _).bind _ = _
  rw [hbody]
  show (value? n _).bind _ = _
  rw [h.reads n rest hrest (by rw [List.length_append]; omega), Option.bind_some]
  simp

theorem members?_intercalate {members : List (String × α)}
    (h : ∀ x ∈ members, Reads (text x.2).toList (value x.2)) (hne : members ≠ []) {n : Nat}
    {rest : List Char}
    (hn : 2 * ([','].intercalate (members.map fun x => (memberText text x).toList) ++
      '\x7d' :: rest).length + 1 < n) :
    members? n ([','].intercalate (members.map fun x => (memberText text x).toList) ++
        '\x7d' :: rest) =
      some (members.map fun (name, x) => (name, value x), rest) := by
  refine read?_intercalate (fun x hx n rest hn => ?_) (fun x hx n s hn => ?_) hne hn
  · rw [members?_memberText (h x hx) (by simp [IsDelimited]) hn]
    rfl
  · rw [members?_memberText (h x hx) (by simp [IsDelimited]) hn]
    rfl

/-- An object is read back if the values of its members are. -/
theorem reads_object {members : List (String × α)}
    (h : ∀ x ∈ members, Reads (text x.2).toList (value x.2)) :
    Reads ("\x7b" ++ ",".intercalate (members.map (memberText text)) ++ "\x7d").toList
      (.object (members.map fun (name, x) => (name, value x))) := by
  have hwritten : ("\x7b" ++ ",".intercalate (members.map (memberText text)) ++ "\x7d").toList =
      '\x7b' :: ([','].intercalate (members.map fun x => (memberText text x).toList) ++
        ['\x7d']) := by
    simp [String.toList_intercalate]
    rfl
  rw [hwritten]
  refine ⟨⟨'\x7b', _, rfl, rfl, by decide⟩, ?_⟩
  intro fuel rest _ hfuel
  obtain ⟨m, rfl⟩ : ∃ m, fuel = m + 1 := ⟨fuel - 1, by omega⟩
  rw [List.cons_append, List.append_assoc, List.singleton_append] at hfuel ⊢
  cases members with
  | nil => rfl
  | cons x members =>
    rw [List.length_cons] at hfuel
    have hmembers : members? m ([','].intercalate ((x :: members).map fun x =>
        (memberText text x).toList) ++ '\x7d' :: rest) =
          some ((x :: members).map fun (name, x) => (name, value x), rest) :=
      members?_intercalate h (List.cons_ne_nil x members) (by omega)
    obtain ⟨behind, hstarts⟩ : ∃ behind, [','].intercalate ((x :: members).map fun x =>
        (memberText text x).toList) ++ '\x7d' :: rest = (memberText text x).toList ++ behind :=
      intercalate_cons_append ..
    rw [toList_memberText, List.cons_append] at hstarts
    rw [hstarts] at hmembers ⊢
    show (members? m _).map _ = _
    rw [hmembers]
    rfl

end

end Json

end WorkflowRecipes
