import WorkflowRecipes.Pattern.Basic
import WorkflowRecipes.Text.Case
import WorkflowRecipes.Text.Digits

/-!
# Patterns written as text

`Pattern.ofText?` reads the usual notation of regular expressions: alternatives, groups, counted
repetition, character classes with set operations, Unicode categories, anchors and the flags `i`,
`m`, `s`, `x`, `R`, `U` and `u`. Looking around and referring back are not part of it.

A class is read into a predicate on characters. Whether a pattern is greedy does not matter here,
for only the existence of a stretch is asked for.
-/

namespace WorkflowRecipes

namespace Pattern

/-- What flags set for the patterns after them. -/
structure Flags where
  ignoreCase : Bool := false
  multiLine : Bool := false
  dotAll : Bool := false
  returnLine : Bool := false
  spaced : Bool := false
  unicode : Bool := true

/-- A kind of characters. -/
abbrev CharKind := Char → Bool

/-- The most copies of characters that a pattern may unfold to. -/
def largest : Nat := 327680

/-- How many copies of characters a pattern unfolds to. -/
def unfoldedSize : Pattern → Nat
  | .seq a b => unfoldedSize a + unfoldedSize b
  | .alt a b => unfoldedSize a + unfoldedSize b + 1
  | .times body least none => unfoldedSize body * max least 1 + 1
  | .times body _ (some most) => unfoldedSize body * most + 1
  | _ => 1

/-! ## Kinds of characters -/

/-- The kind of all other characters. -/
def others (kind : CharKind) : CharKind := fun c => !kind c

/-- The characters that differ from `c` in case only, itself among them. Without the flag `u`, only
ASCII letters come in two cases. -/
def variants (flags : Flags) (c : Char) : List Char :=
  if flags.unicode then Text.foldings c else [c.toLower, c.toUpper]

/-- The characters that differ from one of a kind in case only. -/
def anyCase (flags : Flags) (kind : CharKind) : CharKind :=
  if flags.ignoreCase then fun c => (variants flags c).any kind else kind

/-- A character itself, or in any case. -/
def literal (flags : Flags) (c : Char) : Pattern :=
  if flags.ignoreCase then
    let variants := variants flags c
    .one fun d => variants.contains d
  else .one (· == c)

/-- Whether a kind can stand in a pattern: without the flag `u`, a kind is one of bytes, and those
beyond ASCII make up no text. -/
def isAdmissible (flags : Flags) (kind : CharKind) : Bool := flags.unicode || !kind '\x80'

/-- The kinds behind `\d`, `\s` and `\w`. -/
def shorthand? (flags : Flags) (c : Char) : Option CharKind :=
  if flags.unicode then
    match c with
    | 'd' => some Text.isDecimalDigit
    | 's' => some Text.isBlank
    | 'w' => some Text.isWordChar
    | _ => none
  else
    match c with
    | 'd' => some Char.isDigit
    | 's' => some fun d => d == ' ' || (0x09 ≤ d.toNat && d.toNat ≤ 0x0D)
    | 'w' => some fun d => d.isAlphanum || d == '_'
    | _ => none

/-- The kinds with names in brackets and colons. -/
def posixKind? (name : String) : Option CharKind :=
  let between (a b : Nat) (c : Char) := a ≤ c.toNat && c.toNat ≤ b
  match name with
  | "alnum" => some Char.isAlphanum
  | "alpha" => some Char.isAlpha
  | "ascii" => some (between 0 0x7F)
  | "blank" => some fun c => c == ' ' || c == '\t'
  | "cntrl" => some fun c => between 0 0x1F c || c.toNat == 0x7F
  | "digit" => some Char.isDigit
  | "graph" => some (between 0x21 0x7E)
  | "lower" => some Char.isLower
  | "print" => some (between 0x20 0x7E)
  | "punct" => some fun c => between 0x21 0x7E c && !c.isAlphanum
  | "space" => some fun c => c == ' ' || between 0x09 0x0D c
  | "upper" => some Char.isUpper
  | "word" => some fun c => c.isAlphanum || c == '_'
  | "xdigit" => some fun c => c.isDigit || between 0x41 0x46 c || between 0x61 0x66 c
  | _ => none

/-- A name of a property without what does not count in it: case, spaces, dashes, underscores and
`is` at its start. -/
def plainName (name : List Char) : String :=
  let letters := (name.filter fun c => c != ' ' && c != '_' && c != '-').map Char.toLower
  match letters with
  | ['i', 's', 'c'] => "isc"
  | 'i' :: 's' :: rest => String.ofList rest
  | _ => String.ofList letters

/-- The groups of categories. -/
def categoryGroups : List (String × String × List String) :=
  [("l", "letter", ["Lu", "Ll", "Lt", "Lm", "Lo"]),
    ("lc", "casedletter", ["Lu", "Ll", "Lt"]),
    ("m", "mark", ["Mn", "Mc", "Me"]), ("m", "combiningmark", ["Mn", "Mc", "Me"]),
    ("n", "number", ["Nd", "Nl", "No"]),
    ("p", "punctuation", ["Pc", "Pd", "Ps", "Pe", "Pi", "Pf", "Po"]),
    ("p", "punct", ["Pc", "Pd", "Ps", "Pe", "Pi", "Pf", "Po"]),
    ("s", "symbol", ["Sm", "Sc", "Sk", "So"]), ("z", "separator", ["Zs", "Zl", "Zp"]),
    ("c", "other", ["Cc", "Cf", "Co", "Cn"]), ("nd", "digit", ["Nd"]), ("cc", "cntrl", ["Cc"]),
    ("cn", "unassigned", ["Cn"])]

/-- The kind of characters in a category or a group of categories. -/
def categoryKind? (name : String) : Option CharKind :=
  match Text.categories.find? fun c => c.code.toLower == name || c.name == name with
  | some category => some (Text.inCategory category.code)
  | none =>
    match categoryGroups.find? fun g => g.1 == name || g.2.1 == name with
    | some (_, _, codes) => some fun c => codes.contains (Text.categoryOf c)
    | none => none

/-- The kind of characters with a property. -/
def propertyKind? (name : List Char) : Option CharKind :=
  match plainName name with
  | "any" => some fun _ => true
  | "ascii" => some fun c => c.toNat < 0x80
  | "assigned" => some fun c => Text.categoryOf c != "Cn"
  | "whitespace" | "wspace" | "space" => some Text.isBlank
  | "alphabetic" | "alpha" => some fun c =>
      Text.isWordChar c && !(["Nd", "Pc", "Me"].contains (Text.categoryOf c))
  | plain => categoryKind? plain

/-! ## Escapes -/

/-- What an escape stands for. -/
inductive Escape where
  | char (c : Char)
  | kind (kind : CharKind)
  | place (holds : Option Char → Option Char → Bool)

/-- The value of hexadecimal digits, at least one. -/
def hexNumber? (digits : List Char) : Option Nat :=
  if digits.isEmpty then none
  else
    digits.foldlM (fun n c =>
      if c.isDigit then some (16 * n + (c.toNat - 48))
      else if 'a' ≤ c && c ≤ 'f' then some (16 * n + (c.toNat - 87))
      else if 'A' ≤ c && c ≤ 'F' then some (16 * n + (c.toNat - 55))
      else none) 0

/-- The character with a hexadecimal number. -/
def hexChar? (digits : List Char) : Option Char :=
  (hexNumber? digits).bind fun n => if n.isValidChar then some (Char.ofNat n) else none

/-- A character by its number: in braces, where the flag `x` allows blanks, or of `width` digits. -/
def hexEscape? (flags : Flags) (width : Nat) (text : List Char) : Option (Escape × List Char) :=
  match text with
  | '\x7b' :: rest =>
    (Text.splitOnce '\x7d' rest).bind fun (digits, rest) =>
      (hexChar? (digits.filter fun c => !(flags.spaced && Text.isBlank c))).map fun c =>
        (.char c, rest)
  | _ =>
    if text.length < width then none
    else
      (hexChar? (text.take width)).bind fun c =>
        if width = 2 && !flags.unicode && 0x80 ≤ c.toNat then none
        else some (.char c, text.drop width)

/-- A property: one letter, or a name in braces, or a property and its value. -/
def propertyEscape? (flags : Flags) (negated : Bool) (text : List Char) :
    Option (Escape × List Char) :=
  let finish (kind? : Option CharKind) (rest : List Char) :=
    kind?.bind fun kind =>
      if !flags.unicode then none
      else
        let kind := anyCase flags kind
        some (.kind (if negated then others kind else kind), rest)
  match text with
  | [] => none
  | '\x7b' :: rest =>
    (Text.splitOnce '\x7d' rest).bind fun (name, rest) =>
      match Text.splitAt? ['!', '='] name, Text.splitOnce ':' name, Text.splitOnce '=' name with
      | some (property, value), _, _ =>
        if ["gc", "generalcategory"].contains (plainName property) then
          finish ((propertyKind? value).map others) rest
        else none
      | none, some (property, value), _ | none, none, some (property, value) =>
        if ["gc", "generalcategory"].contains (plainName property) then
          finish (propertyKind? value) rest
        else none
      | none, none, none => finish (propertyKind? name) rest
  | c :: rest => if c == '\\' then none else finish (propertyKind? [c]) rest

/-- Whether a neighbour belongs to a word. -/
def isWordAt (flags : Flags) (c : Option Char) : Bool :=
  match shorthand? flags 'w' with
  | some kind => c.any kind
  | none => false

/-- The edges of words with names in braces. -/
def wordEdge? (flags : Flags) (name : String) : Option (Option Char → Option Char → Bool) :=
  match name with
  | "start" => some fun b n => !isWordAt flags b && isWordAt flags n
  | "end" => some fun b n => isWordAt flags b && !isWordAt flags n
  | "start-half" => some fun b _ => !isWordAt flags b
  | "end-half" => some fun _ n => !isWordAt flags n
  | _ => none

/-- An escape, read after its backslash. -/
def escape? (flags : Flags) : List Char → Option (Escape × List Char)
  | [] => none
  | 'x' :: rest => hexEscape? flags 2 rest
  | 'u' :: rest => hexEscape? flags 4 rest
  | 'U' :: rest => hexEscape? flags 8 rest
  | 'p' :: rest => propertyEscape? flags false rest
  | 'P' :: rest => propertyEscape? flags true rest
  | 'a' :: rest => some (.char '\x07', rest)
  | 'f' :: rest => some (.char '\x0c', rest)
  | 't' :: rest => some (.char '\t', rest)
  | 'n' :: rest => some (.char '\n', rest)
  | 'r' :: rest => some (.char '\r', rest)
  | 'v' :: rest => some (.char '\x0b', rest)
  | 'A' :: rest => some (.place fun b _ => b.isNone, rest)
  | 'z' :: rest => some (.place fun _ n => n.isNone, rest)
  | 'B' :: rest => some (.place fun b n => isWordAt flags b == isWordAt flags n, rest)
  | '<' :: rest => (wordEdge? flags "start").map fun holds => (.place holds, rest)
  | '>' :: rest => (wordEdge? flags "end").map fun holds => (.place holds, rest)
  | 'b' :: rest =>
    let plain : Escape := .place fun b n => isWordAt flags b != isWordAt flags n
    match rest with
    | '\x7b' :: c :: more =>
      if c.isAlpha || c == '-' then
        (Text.splitOnce '\x7d' (c :: more)).bind fun (name, after) =>
          (wordEdge? flags (String.ofList name)).map fun holds => (.place holds, after)
      else some (plain, rest)
    | _ => some (plain, rest)
  | c :: rest =>
    match shorthand? flags c.toLower with
    | some kind =>
      if c.isUpper then (if flags.unicode then some (.kind (others kind), rest) else none)
      else some (.kind kind, rest)
    | none => if c.toNat < 0x80 && !c.isAlphanum then some (.char c, rest) else none

/-! ## Classes -/

/-- A text without the blanks and remarks that the flag `x` allows. -/
def skipSpace (flags : Flags) (text : List Char) : List Char :=
  if !flags.spaced then text
  else go text.length text
where
  /-- Drop blanks and remarks; every round drops a character. -/
  go : Nat → List Char → List Char
    | 0, text => text
    | n + 1, text =>
      match text with
      | '#' :: rest => go n ((rest.dropWhile (· != '\n')).drop 1)
      | c :: rest => if Text.isBlank c then go n rest else text
      | [] => []

/-- A set operation that waits for its second side. -/
abbrev Pending := CharKind → CharKind

/-- The set operation that starts a text. -/
def setOperation? (flags : Flags) (text : List Char) : Option ((CharKind → Pending) × List Char) :=
  let fold := anyCase flags
  match text with
  | '&' :: '&' :: rest => some (fun a b c => fold a c && fold b c, rest)
  | '-' :: '-' :: rest => some (fun a b c => fold a c && !fold b c, rest)
  | '~' :: '~' :: rest => some (fun a b c => fold a c != fold b c, rest)
  | _ => none

/-- A kind with a name, read after `[:`. -/
def namedKind? (text : List Char) : Option (CharKind × List Char) :=
  let (negated, text) := match text with
    | '^' :: rest => (true, rest)
    | _ => (false, text)
  match Text.splitOnce ':' text with
  | some (name, ']' :: rest) =>
    (posixKind? (String.ofList name)).map fun kind =>
      (if negated then others kind else kind, rest)
  | _ => none

/-- One character or kind of a class, the characters beyond ASCII only with the flag `u`. -/
def classAtom? (flags : Flags) (text : List Char) : Option (Escape × List Char) :=
  let atom := match text with
    | [] => none
    | '\\' :: rest => escape? flags rest
    | c :: rest => some (.char c, rest)
  atom.filter fun (escape, _) =>
    match escape with
    | .char c => flags.unicode || c.toNat < 0x80
    | .kind _ => true
    | .place _ => false

/-- A character, a range or a kind of a class. -/
def classItem? (flags : Flags) (text : List Char) : Option (CharKind × List Char) :=
  (classAtom? flags text).bind fun (first, rest) =>
    let alone : CharKind := match first with
      | .char c => (· == c)
      | .kind kind => kind
      | .place _ => fun _ => false
    match skipSpace flags rest with
    | [] => none
    | '-' :: more =>
      match skipSpace flags more with
      | [] => none
      | ']' :: _ => some (alone, rest)
      | '-' :: _ => some (alone, rest)
      | next =>
        (classAtom? flags next).bind fun (last, rest) =>
          match first, last with
          | .char a, .char b => if a ≤ b then some (fun c => a ≤ c && c ≤ b, rest) else none
          | _, _ => none
    | _ => some (alone, rest)

/-- The minus signs at the start of a class, and a bracket where the class would be empty. -/
def classLead (flags : Flags) : Nat → Bool → CharKind → List Char → CharKind × List Char
  | 0, _, kind, text => (kind, text)
  | n + 1, bare, kind, text =>
    match skipSpace flags text with
    | '-' :: rest => classLead flags n false (fun c => kind c || c == '-') rest
    | ']' :: rest => if bare then (fun c => kind c || c == ']', rest) else (kind, ']' :: rest)
    | rest => (kind, rest)

/-- Whether a class starts with a caret, and the rest. -/
def classHead (text : List Char) : Bool × List Char :=
  match text with
  | '^' :: rest => (true, rest)
  | _ => (false, text)

/-- The rest of a class up to its bracket. `pending` is a set operation that waits for the kinds
read since, `kind`. The first argument bounds the number of items. -/
def classRest? (flags : Flags) :
    Nat → Bool → Option Pending → CharKind → List Char → Option (CharKind × List Char)
  | 0, _, _, _, _ => none
  | n + 1, negated, pending, kind, text =>
    let complete : CharKind := match pending with
      | some operation => operation kind
      | none => kind
    match skipSpace flags text with
    | [] => none
    | ']' :: rest =>
      let folded := anyCase flags complete
      let kind := if negated then others folded else folded
      if isAdmissible flags kind then some (kind, rest) else none
    | '[' :: rest =>
      let named := match rest with
        | ':' :: more => namedKind? more
        | _ => none
      match named with
      | some (inner, rest) => classRest? flags n negated pending (fun c => kind c || inner c) rest
      | none =>
        let (innerNegated, rest) := classHead rest
        let (lead, rest) := classLead flags rest.length true (fun _ => false) rest
        (classRest? flags n innerNegated none lead rest).bind fun (inner, rest) =>
          classRest? flags n negated pending (fun c => kind c || inner c) rest
    | text =>
      match setOperation? flags text with
      | some (operation, rest) =>
        classRest? flags n negated (some (operation complete)) (fun _ => false) rest
      | none =>
        (classItem? flags text).bind fun (item, rest) =>
          classRest? flags n negated pending (fun c => kind c || item c) rest

/-- A class, read after its opening bracket. -/
def class? (flags : Flags) (text : List Char) : Option (CharKind × List Char) :=
  let (negated, text) := classHead text
  let (lead, text) := classLead flags text.length true (fun _ => false) text
  classRest? flags (text.length + 1) negated none lead text

/-! ## Repetition -/

/-- A number in a counted repetition, blanks around it allowed. -/
def count? (text : List Char) : Option (Nat × List Char) :=
  let text := Text.trimStart text
  (Text.naturalBelow? UInt32.size (text.takeWhile Char.isDigit)).map fun n =>
    (n, Text.trimStart (text.dropWhile Char.isDigit))

/-- The bounds of a counted repetition, read after its brace. -/
def bounds? (flags : Flags) (text : List Char) : Option (Nat × Option Nat × List Char) :=
  (count? (skipSpace flags text)).bind fun (least, rest) =>
    match skipSpace flags rest with
    | '\x7d' :: rest => some (least, some least, rest)
    | ',' :: rest =>
      match skipSpace flags rest with
      | '\x7d' :: rest => some (least, none, rest)
      | rest =>
        (count? rest).bind fun (most, rest) =>
          match rest with
          | '\x7d' :: rest => if least ≤ most then some (least, some most, rest) else none
          | _ => none
    | _ => none

/-- A text without the question mark that makes a repetition reluctant. -/
def dropReluctant (flags : Flags) (text : List Char) : List Char :=
  match skipSpace flags text with
  | '?' :: rest => rest
  | _ => text

/-- The bounds of the repetition that starts a text, and what follows; nothing if none starts it. -/
def repetition? (flags : Flags) : List Char → Option (Option (Nat × Option Nat × List Char))
  | '?' :: rest => some (some (0, some 1, dropReluctant flags rest))
  | '*' :: rest => some (some (0, none, dropReluctant flags rest))
  | '+' :: rest => some (some (1, none, dropReluctant flags rest))
  | '\x7b' :: rest =>
    (bounds? flags rest).map fun (least, most, rest) =>
      some (least, most, dropReluctant flags rest)
  | _ => some none

/-! ## Groups -/

/-- A flag set or cleared. -/
def setFlag? (flags : Flags) (c : Char) (value : Bool) : Option Flags :=
  match c with
  | 'i' => some { flags with ignoreCase := value }
  | 'm' => some { flags with multiLine := value }
  | 's' => some { flags with dotAll := value }
  | 'R' => some { flags with returnLine := value }
  | 'x' => some { flags with spaced := value }
  | 'u' => some { flags with unicode := value }
  | 'U' => some flags
  | _ => none

/-- The flags of a group up to its colon or bracket; `colon` tells which it was. -/
def groupFlags? (flags : Flags) (seen : List Char) (value : Bool) :
    List Char → Option (Flags × Bool × List Char)
  | [] => none
  | ':' :: rest => if seen.head? == some '-' then none else some (flags, true, rest)
  | ')' :: rest =>
    if seen.isEmpty || seen.head? == some '-' then none else some (flags, false, rest)
  | c :: rest =>
    if seen.contains c then none
    else if c == '-' then groupFlags? flags ('-' :: seen) false rest
    else (setFlag? flags c value).bind fun flags => groupFlags? flags (c :: seen) value rest

/-- Whether a name can be that of a group. -/
def isGroupName (name : List Char) : Bool :=
  let isLetter (c : Char) := c == '_' || (Text.isWordChar c && !Text.isDecimalDigit c)
  match name with
  | [] => false
  | c :: rest =>
    isLetter c && rest.all fun d => Text.isWordChar d || d == '.' || d == '[' || d == ']'

/-- What opens a group: flags for what follows, or a group with its flags and its name. -/
inductive Opening where
  | flags (flags : Flags)
  | group (flags : Flags) (name : Option (List Char))

/-- What opens a group, read after its bracket. -/
def opening? (flags : Flags) (text : List Char) : Option (Opening × List Char) :=
  let named (rest : List Char) :=
    (Text.splitOnce '>' rest).bind fun (name, rest) =>
      if isGroupName name then some (.group flags (some name), rest) else none
  match text with
  | '?' :: '<' :: '=' :: _ => none
  | '?' :: '<' :: '!' :: _ => none
  | '?' :: 'P' :: '<' :: rest => named rest
  | '?' :: '<' :: rest => named rest
  | '?' :: rest =>
    (groupFlags? flags [] true rest).map fun (flags, colon, rest) =>
      (if colon then .group flags none else .flags flags, rest)
  | _ => some (.group flags none, text)

/-- The start of the text or, with the flag `m`, of a line. -/
def startAnchor (flags : Flags) : Pattern :=
  .between fun before next =>
    before.isNone || (flags.multiLine && (before == some '\n' ||
      (flags.returnLine && before == some '\r' && next != some '\n')))

/-- The end of the text or, with the flag `m`, of a line. -/
def endAnchor (flags : Flags) : Pattern :=
  .between fun before next =>
    next.isNone || (flags.multiLine &&
      (if flags.returnLine then next == some '\r' || (next == some '\n' && before != some '\r')
        else next == some '\n'))

/-- Any character, with the exceptions that the flags ask for. -/
def dot? (flags : Flags) : Option Pattern :=
  if !flags.unicode then none
  else if flags.dotAll then some (.one fun _ => true)
  else some (.one fun c => c != '\n' && !(flags.returnLine && c == '\r'))

/-- The pattern of alternatives, each a list of parts with the last of them first. A part is nothing
where flags were set. -/
def ofAlternatives (alternatives : List (List (Option Pattern))) : Pattern :=
  let ofParts (parts : List (Option Pattern)) := chain (parts.reverse.filterMap id)
  match alternatives.reverse.map ofParts with
  | [] => .empty
  | first :: others => anyOf first others

/-- What is read of a group: its pattern, the names of all groups so far, and the rest. -/
abbrev Reading := Pattern × List (List Char) × List Char

/-- The alternatives up to the end of a group or of the text. `done` holds the finished ones and
`parts` the parts of the current one, the last first. The first argument bounds the steps; each
takes a character. -/
def alternatives? : Nat → Flags → List (List Char) → List (List (Option Pattern)) →
    List (Option Pattern) → List Char → Option Reading
  | 0, _, _, _, _, _ => none
  | n + 1, flags, names, done, parts, text =>
    match skipSpace flags text with
    | [] => some (ofAlternatives (parts :: done), names, [])
    | ')' :: rest => some (ofAlternatives (parts :: done), names, ')' :: rest)
    | '|' :: rest => alternatives? n flags names (parts :: done) [] rest
    | '(' :: rest =>
      (opening? flags rest).bind fun
        | (.flags inner, rest) => alternatives? n inner names done (none :: parts) rest
        | (.group inner name, rest) =>
          if name.any names.contains then none
          else
            (alternatives? n inner (name.toList ++ names) [] [] rest).bind fun
              | (pattern, names, ')' :: rest) =>
                alternatives? n flags names done (some pattern :: parts) rest
              | _ => none
    | '[' :: rest =>
      (class? flags rest).bind fun (kind, rest) =>
        alternatives? n flags names done (some (.one kind) :: parts) rest
    | '\\' :: rest =>
      (escape? flags rest).bind fun (escape, rest) =>
        let pattern := match escape with
          | .char c => literal flags c
          | .kind kind => .one kind
          | .place holds => .between holds
        alternatives? n flags names done (some pattern :: parts) rest
    | '.' :: rest =>
      (dot? flags).bind fun dot => alternatives? n flags names done (some dot :: parts) rest
    | '^' :: rest => alternatives? n flags names done (some (startAnchor flags) :: parts) rest
    | '$' :: rest => alternatives? n flags names done (some (endAnchor flags) :: parts) rest
    | c :: rest =>
      (repetition? flags (c :: rest)).bind fun
        | some (least, most, rest) =>
          match parts with
          | some last :: before =>
            alternatives? n flags names done (some (.times last least most) :: before) rest
          | _ => none
        | none => alternatives? n flags names done (some (literal flags c) :: parts) rest

/-- The pattern that a text describes, unless the text is not well formed or asks for too much. -/
def ofText? (text : String) : Option Pattern :=
  match alternatives? (text.length + 1) {} [] [] [] text.toList with
  | some (pattern, _, []) => if unfoldedSize pattern ≤ largest then some pattern else none
  | _ => none

end Pattern

end WorkflowRecipes
