import WorkflowRecipes.Yaml.ScalarText

/-!
# Tokens

`tokens?` cuts the text of one segment into tokens. A mapping key shows only by the colon after it,
so the place of every text that may turn out to be a key is kept pending, and the key token is put
there afterwards. A pending key must be on one line and within 1024 characters of its colon.
-/

namespace WorkflowRecipes.Yaml

/-- How a scalar is written. -/
inductive Style where
  | plain
  | quoted
  | literal
  | folded
  deriving Repr, DecidableEq

/-- A token of a segment. -/
inductive Token where
  | version (major minor : Nat)
  | tagHandle (handle start : List Char)
  | blockSequenceStart
  | blockMappingStart
  | blockEnd
  | flowSequenceStart
  | flowSequenceEnd
  | flowMappingStart
  | flowMappingEnd
  | blockEntry
  | flowEntry
  | key
  | value
  | alias (name : List Char)
  | anchor (name : List Char)
  | tag (handle suffix : List Char)
  | scalar (text : List Char) (style : Style)
  deriving Repr, DecidableEq

/-! ## Names, tags and directives -/

/-- The characters of anchor names and tag handles. -/
def isNameChar (c : Char) : Bool := c.isAlphanum || c == '_' || c == '-'

/-- The characters of a tag besides those of names; `verbatim` admits the flow delimiters. -/
def isTagChar (verbatim : Bool) (c : Char) : Bool :=
  isNameChar c || ";/?:@&=+$.!~*'()".toList.contains c ||
    (verbatim && (c == ',' || c == '[' || c == ']'))

/-- The number of octets in a character's encoding, by its first octet, and the bits that the first
octet contributes. -/
def leadOctet? (octet : Nat) : Option (Nat × Nat) :=
  if octet < 0x80 then some (1, octet)
  else if octet / 0x20 = 6 then some (2, octet % 0x20)
  else if octet / 0x10 = 14 then some (3, octet % 0x10)
  else if octet / 0x08 = 30 then some (4, octet % 0x08)
  else none

/-- An octet written as a percent sign and two hexadecimal digits. -/
def percentOctet? : List Char → Option (Nat × List Char)
  | '%' :: s => hexDigits? 2 0 s
  | _ => none

/-- The octets after the first of an escaped character, `n` of them. -/
def trailingOctets? : Nat → Nat → List Char → Option (Nat × List Char)
  | 0, acc, s => some (acc, s)
  | n + 1, acc, s =>
    (percentOctet? s).bind fun (octet, rest) =>
      if octet / 0x40 = 2 then trailingOctets? n (0x40 * acc + octet % 0x40) rest else none

/-- A character written as escaped octets, the number of octets, and what follows. -/
def percentChar? (s : List Char) : Option (Char × Nat × List Char) :=
  (percentOctet? s).bind fun (octet, rest) =>
    (leadOctet? octet).bind fun (width, bits) =>
      (trailingOctets? (width - 1) bits rest).bind fun (value, rest) =>
        if value.isValidChar then some (Char.ofNat value, width, rest) else none

/-- The longest run of tag characters with its escapes read. -/
def tagRun? (verbatim : Bool) : Nat → Cursor → Option (List Char × Cursor)
  | 0, c => some ([], c)
  | n + 1, c =>
    match c.rest with
    | [] => some ([], c)
    | d :: s =>
      if d == '%' then
        (percentChar? c.rest).bind fun (e, width, rest) =>
          (tagRun? verbatim n (c.past (3 * width) rest)).map fun (text, c) => (e :: text, c)
      else if isTagChar verbatim d then
        (tagRun? verbatim n (c.past 1 s)).map fun (text, c) => (d :: text, c)
      else some ([], c)

/-- A tag as far as its first null character. -/
def tagText (text : List Char) : List Char := text.takeWhile (· != '\x00')

/-- An exclamation mark, name characters, and one more exclamation mark if it is there. -/
def tagHandle? (c : Cursor) : Option (List Char × Cursor) :=
  if c.isAt '!' then
    let (name, c) := c.skip.takeRun isNameChar
    if c.isAt '!' then some ('!' :: name ++ ['!'], c.skip) else some ('!' :: name, c)
  else none

/-- Whether a handle is closed by a second exclamation mark. -/
def isClosedHandle (handle : List Char) : Bool :=
  1 < handle.length && handle.getLast? == some '!'

/-- A tag: verbatim in angle brackets, with a closed handle, or with the plain handle `!`. The empty
handle stands for a tag given in full. -/
def tag? (flow : Bool) (size : Nat) (c : Cursor) : Option (Token × Cursor) :=
  let scanned : Option (List Char × List Char × Cursor) :=
    match c.rest with
    | '!' :: '<' :: _ =>
      (tagRun? true size c.skip.skip).bind fun (text, c) =>
        if !text.isEmpty && c.isAt '>' then some ([], tagText text, c.skip) else none
    | _ =>
      (tagHandle? c).bind fun (handle, c) =>
        (tagRun? false size c).bind fun (text, c) =>
          if isClosedHandle handle then
            if text.isEmpty then none else some (handle, tagText text, c)
          else
            let suffix := tagText (handle.drop 1 ++ text)
            if suffix.isEmpty then some ([], ['!'], c) else some (['!'], suffix, c)
  scanned.bind fun (handle, suffix, c) =>
    if (flow && c.isAt ',') || atWordEnd c.rest then some (.tag handle suffix, c) else none

/-- The name of an anchor or an alias. What follows must be able to end a name. -/
def anchorName? (c : Cursor) : Option (List Char × Cursor) :=
  let (name, c) := c.takeRun isNameChar
  let ended := atWordEnd c.rest || c.sees fun d => "?:,]\x7d%@`".toList.contains d
  if !name.isEmpty && ended then some (name, c) else none

/-- A number of at most nine digits. -/
def shortNumber? (c : Cursor) : Option (Nat × Cursor) :=
  let (digits, c) := c.takeRun Char.isDigit
  if digits.isEmpty || 9 < digits.length then none
  else some (digits.foldl (fun n d => 10 * n + (d.toNat - '0'.toNat)) 0, c)

/-- A directive with its line, the cursor being at the percent sign. -/
def directive? (size : Nat) (c : Cursor) : Option (Token × Cursor) :=
  let (name, c) := c.skip.takeRun isNameChar
  if !atWordEnd c.rest then none
  else
    let c := c.skipRun isGap
    let scanned : Option (Token × Cursor) :=
      if name == "YAML".toList then
        (shortNumber? c).bind fun (major, c) =>
          if c.isAt '.' then
            (shortNumber? c.skip).map fun (minor, c) => (.version major minor, c)
          else none
      else if name == "TAG".toList then
        (tagHandle? c).bind fun (handle, c) =>
          if (handle == ['!'] || isClosedHandle handle) && c.sees isGap then
            (tagRun? true size (c.skipRun isGap)).bind fun (text, c) =>
              if !text.isEmpty && atWordEnd c.rest then
                some (.tagHandle handle (tagText text), c)
              else none
          else none
      else none
    scanned.bind fun (token, c) => c.finishLine?.map fun c => (token, c)

/-! ## The state of the cut -/

/-- A place where a key may have started: before which token, and where in the text. A required key
must be followed by its colon. -/
structure PendingKey where
  position : Nat
  required : Bool
  index : Nat
  line : Nat
  column : Nat
  deriving Repr

/-- Tokens so far, the text to come, the columns of the open blocks, the pending key of the current
flow collection and those of the collections around it, and whether a key may start here. -/
structure Scan where
  cursor : Cursor
  tokens : Array Token
  indents : List Nat
  pending : Option PendingKey
  outer : List (Option PendingKey)
  keyAllowed : Bool

namespace Scan

/-- Whether the cursor is inside a flow collection. -/
def flow (s : Scan) : Bool := !s.outer.isEmpty

/-- Add one token. -/
def push (s : Scan) (token : Token) : Scan := { s with tokens := s.tokens.push token }

/-- Add a token that is one character long. -/
def pushSkip (s : Scan) (token : Token) : Scan := { s.push token with cursor := s.cursor.skip }

/-- Give up a pending key that the cursor has left behind; a required one is then malformed. -/
def expire? (c : Cursor) : Option PendingKey → Option (Option PendingKey)
  | none => some none
  | some key =>
    if key.line < c.line || key.index + 1024 < c.index then
      if key.required then none else some none
    else some (some key)

/-- Give up every pending key that the cursor has left behind. -/
def expireAll? (s : Scan) : Option Scan :=
  (expire? s.cursor s.pending).bind fun pending =>
    (s.outer.mapM (expire? s.cursor)).map fun outer =>
      { s with pending := pending, outer := outer }

/-- Give up the pending key of this level. -/
def dropKey? (s : Scan) : Option Scan :=
  if s.pending.any (·.required) then none else some { s with pending := none }

/-- Note that a key may start here. In a block, one at the block's own column is required. -/
def saveKey? (s : Scan) : Option Scan :=
  if s.keyAllowed then
    s.dropKey?.map fun s =>
      let c := s.cursor
      let required := !s.flow && s.indents.head? == some c.column
      { s with pending := some ⟨s.tokens.size, required, c.index, c.line, c.column⟩ }
  else some s

/-- Close the blocks that start to the right of `column`. -/
def unrollFrom (column : Option Nat) : List Nat → Array Token → List Nat × Array Token
  | [], tokens => ([], tokens)
  | indent :: rest, tokens =>
    if column.all fun k => decide (k < indent) then
      unrollFrom column rest (tokens.push .blockEnd)
    else (indent :: rest, tokens)

/-- Close the blocks that start to the right of `column`, or all; flow collections have none. -/
def unroll (s : Scan) (column : Option Nat) : Scan :=
  if s.flow then s
  else
    let (indents, tokens) := unrollFrom column s.indents s.tokens
    { s with indents := indents, tokens := tokens }

/-- Open a block at `column` if it is to the right of the current one; its start goes before the
token at `position`. -/
def roll (s : Scan) (column position : Nat) (start : Token) : Scan :=
  if !s.flow && s.indents.head?.all fun indent => decide (indent < column) then
    { s with
      indents := column :: s.indents
      tokens := s.tokens.insertIdxIfInBounds position start }
  else s

/-- Skip what separates tokens: a byte order mark at the start of a line, gaps, comments and breaks.
A tab counts as a gap where no key may start. A break in a block allows a key again. -/
def toToken : Nat → Scan → Scan
  | 0, s => s
  | n + 1, s =>
    let c := s.cursor
    let c := if c.column == 0 && c.isAt '\uFEFF' then c.skip else c
    let tabs := s.flow || !s.keyAllowed
    let c := c.skipRun fun d => d == ' ' || (tabs && d == '\t')
    let c := c.skipComment
    if c.sees isBreak then
      toToken n { s with cursor := c.readBreak.2, keyAllowed := s.keyAllowed || !s.flow }
    else { s with cursor := c }

/-- The opening of a flow collection, which may itself be a key. -/
def openFlow? (s : Scan) (start : Token) : Option Scan :=
  s.saveKey?.map fun s =>
    { s.pushSkip start with
      pending := none
      outer := s.pending :: s.outer
      keyAllowed := true }

/-- The end of a flow collection. -/
def closeFlow? (s : Scan) (stop : Token) : Option Scan :=
  s.dropKey?.map fun s =>
    let (pending, outer) := match s.outer with
      | [] => (s.pending, [])
      | key :: outer => (key, outer)
    { s.pushSkip stop with pending := pending, outer := outer, keyAllowed := false }

/-- A dash that starts an item of a block sequence. -/
def blockEntry? (s : Scan) : Option Scan :=
  if s.flow then s.dropKey?.map fun s => { s.pushSkip .blockEntry with keyAllowed := true }
  else if s.keyAllowed then
    (s.roll s.cursor.column s.tokens.size .blockSequenceStart).dropKey?.map fun s =>
      { s.pushSkip .blockEntry with keyAllowed := true }
  else none

/-- A question mark that starts a key. -/
def keyMark? (s : Scan) : Option Scan :=
  if s.flow || s.keyAllowed then
    (s.roll s.cursor.column s.tokens.size .blockMappingStart).dropKey?.map fun s =>
      { s.pushSkip .key with keyAllowed := !s.flow }
  else none

/-- A colon. A pending key gets its key token, and a block mapping may start before it. -/
def valueMark? (s : Scan) : Option Scan :=
  match s.pending with
  | some key =>
    let s := { s with tokens := s.tokens.insertIdxIfInBounds key.position .key }
    let s := s.roll key.column key.position .blockMappingStart
    some { s.pushSkip .value with pending := none, keyAllowed := false }
  | none =>
    if s.flow || s.keyAllowed then
      let s := s.roll s.cursor.column s.tokens.size .blockMappingStart
      some { s.pushSkip .value with keyAllowed := !s.flow }
    else none

/-- A token that may be a key or a part of one, read by `read`. -/
def keyPart? (s : Scan) (read : Cursor → Option (Token × Cursor)) : Option Scan :=
  s.saveKey?.bind fun s =>
    (read s.cursor).map fun (token, c) => { s.push token with cursor := c, keyAllowed := false }

/-- A plain scalar. One that reaches into a later line allows a key after it. -/
def plain? (size : Nat) (s : Scan) : Option Scan :=
  s.saveKey?.bind fun s =>
    let indent := match s.indents with
      | [] => 0
      | column :: _ => column + 1
    (plainScalar? s.flow indent size s.cursor).map fun (text, broken, c) =>
      { s.push (.scalar text .plain) with cursor := c, keyAllowed := broken }

/-- A block scalar. -/
def block? (size : Nat) (s : Scan) : Option Scan :=
  s.dropKey?.bind fun s =>
    let style := if s.cursor.isAt '|' then Style.literal else .folded
    (blockScalar? s.indents.head? size s.cursor).map fun (text, c) =>
      { s.push (.scalar text style) with cursor := c, keyAllowed := true }

/-- Whether a character can start no plain scalar. -/
def isIndicator (c : Char) : Bool :=
  "-?:,[]\x7b\x7d#&*!|>'\"%@`".toList.contains c

/-- The next token, the cursor being at its first character `d` with `after` behind it. -/
def fetch? (size : Nat) (s : Scan) (d : Char) (after : List Char) : Option Scan :=
  if d == '%' && s.cursor.column == 0 then
    (s.unroll none).dropKey?.bind fun s =>
      (directive? size s.cursor).map fun (token, c) =>
        { s.push token with cursor := c, keyAllowed := false }
  else if d == '[' then s.openFlow? .flowSequenceStart
  else if d == '{' then s.openFlow? .flowMappingStart
  else if d == ']' then s.closeFlow? .flowSequenceEnd
  else if d == '}' then s.closeFlow? .flowMappingEnd
  else if d == ',' then
    s.dropKey?.map fun s => { s.pushSkip .flowEntry with keyAllowed := true }
  else if d == '-' && atWordEnd after then s.blockEntry?
  else if d == '?' && (s.flow || atWordEnd after) then s.keyMark?
  else if d == ':' && (s.flow || atWordEnd after) then s.valueMark?
  else if d == '*' then
    s.keyPart? fun c => (anchorName? c.skip).map fun (name, c) => (.alias name, c)
  else if d == '&' then
    s.keyPart? fun c => (anchorName? c.skip).map fun (name, c) => (.anchor name, c)
  else if d == '!' then s.keyPart? (tag? s.flow size)
  else if (d == '|' || d == '>') && !s.flow then s.block? size
  else if d == '\'' || d == '"' then
    s.keyPart? fun c => (quotedScalar? size c).map fun (text, c) => (.scalar text .quoted, c)
  else if !(isIndicator d || isGap d) || (d == '-' && !(after.head?.any isGap)) ||
      (!s.flow && (d == '?' || d == ':')) then
    s.plain? size
  else none

/-- The tokens from here to the end of the text. -/
def finish? (size : Nat) : Nat → Scan → Option (List Token)
  | 0, _ => none
  | n + 1, s =>
    (s.toToken (size + 1)).expireAll?.bind fun s =>
      match s.cursor.rest with
      | [] => (s.unroll none).dropKey?.map (·.tokens.toList)
      | d :: after =>
        ((s.unroll (some s.cursor.column)).fetch? size d after).bind (finish? size n)

end Scan

/-- The tokens of a segment. Behind a marker the segment's text starts at column 3 of the marker's
line, where no key may start. -/
def tokens? (segment : Segment) : Option (List Token) :=
  let size := segment.text.length
  let marked := segment.marker != .streamStart
  Scan.finish? size (size + 1)
    { cursor := ⟨segment.text, 0, 0, if marked then 3 else 0⟩
      tokens := #[]
      indents := []
      pending := none
      outer := []
      keyAllowed := !marked }

end WorkflowRecipes.Yaml
