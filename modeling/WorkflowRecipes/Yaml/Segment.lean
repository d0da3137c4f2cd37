/-!
# The segments of a stream

A line that starts with `---` or `...` as a word of its own is a marker line. No scalar and no
collection crosses one, so a stream is read segment by segment: the text before the first marker,
and the text after each marker up to the next.
-/

namespace WorkflowRecipes.Yaml

/-- Line breaks: carriage return, line feed, next line, line separator, paragraph separator. -/
def isBreak (c : Char) : Bool :=
  c == '\r' || c == '\n' || c == '\u0085' || c == '\u2028' || c == '\u2029'

/-- A space or a tab. -/
def isGap (c : Char) : Bool := c == ' ' || c == '\t'

/-- Whether a text is at its end, at a space or tab, or at a line break. -/
def atWordEnd : List Char → Bool
  | [] => true
  | c :: _ => isGap c || isBreak c

/-- Whether a text is at its end or at a line break. -/
def atLineEnd : List Char → Bool
  | [] => true
  | c :: _ => isBreak c

/-- The characters a stream may hold. -/
def isAllowed (c : Char) : Bool :=
  let n := c.toNat
  n == 0x09 || n == 0x0A || n == 0x0D || (0x20 ≤ n && n ≤ 0x7E) || n == 0x85 ||
    (0xA0 ≤ n && n ≤ 0xD7FF) || (0xE000 ≤ n && n ≤ 0xFFFD) || 0x10000 ≤ n

/-- What opens a segment. -/
inductive Marker where
  | streamStart
  | documentStart
  | documentEnd
  deriving Repr, DecidableEq

/-- A marker and the text up to the next one. The text of a marked segment starts in the middle of
the marker's line. -/
structure Segment where
  marker : Marker
  text : List Char
  deriving Repr, DecidableEq

/-- The lines of a text, each with its break. -/
def linesWithBreaks : List Char → List (List Char)
  | [] => []
  | c :: s =>
    if isBreak c then [c] :: linesWithBreaks s
    else
      match linesWithBreaks s with
      | [] => [[c]]
      | line :: rest => (c :: line) :: rest

/-- The marker that a line starts with, and the rest of the line. -/
def Marker.ofLine? : List Char → Option (Marker × List Char)
  | '-' :: '-' :: '-' :: rest => if atWordEnd rest then some (.documentStart, rest) else none
  | '.' :: '.' :: '.' :: rest => if atWordEnd rest then some (.documentEnd, rest) else none
  | _ => none

/-- The text before the first marker line, and the segments after it. -/
def Segment.group : List (List Char) → List Char × List Segment
  | [] => ([], [])
  | line :: rest =>
    let (text, segments) := group rest
    match Marker.ofLine? line with
    | some (marker, tail) => ([], ⟨marker, tail ++ text⟩ :: segments)
    | none => (line ++ text, segments)

/-- The segments of a stream; the first has the marker `streamStart`. -/
def segments (stream : List Char) : List Segment :=
  let (first, rest) := Segment.group (linesWithBreaks stream)
  ⟨.streamStart, first⟩ :: rest

example : segments "a\n--- b\n...".toList =
    [⟨.streamStart, ['a', '\n']⟩, ⟨.documentStart, [' ', 'b', '\n']⟩, ⟨.documentEnd, []⟩] := by
  decide

end WorkflowRecipes.Yaml
