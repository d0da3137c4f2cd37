import WorkflowRecipes.Yaml.Segment

/-!
# Reading positions

A cursor is the text still to be read with the place it starts at. The index counts characters, the
line counts breaks and the column counts characters since the last break.
-/

namespace WorkflowRecipes.Yaml

/-- The text still to be read and its place. -/
structure Cursor where
  rest : List Char
  index : Nat
  line : Nat
  column : Nat
  deriving Repr, DecidableEq, Inhabited

namespace Cursor

/-- The cursor after `n` characters that hold no break. -/
def past (c : Cursor) (n : Nat) (rest : List Char) : Cursor :=
  ⟨rest, c.index + n, c.line, c.column + n⟩

/-- The cursor after one character that is no break. -/
def skip (c : Cursor) : Cursor :=
  c.past 1 c.rest.tail

/-- Whether the next character satisfies `p`. -/
def sees (c : Cursor) (p : Char → Bool) : Bool :=
  match c.rest with
  | [] => false
  | d :: _ => p d

/-- Whether the next character is `d`. -/
def isAt (c : Cursor) (d : Char) : Bool := c.sees (· == d)

/-- The longest run of characters that satisfy `p`, how many they are, and what follows. -/
def run (p : Char → Bool) : List Char → List Char × Nat × List Char
  | [] => ([], 0, [])
  | d :: s =>
    if p d then
      let (taken, n, rest) := run p s
      (d :: taken, n + 1, rest)
    else ([], 0, d :: s)

/-- Take the longest run of characters that satisfy `p`, none of which may be a break. -/
def takeRun (c : Cursor) (p : Char → Bool) : List Char × Cursor :=
  let (taken, n, rest) := run p c.rest
  (taken, c.past n rest)

/-- Skip the longest run of characters that satisfy `p`, none of which may be a break. -/
def skipRun (c : Cursor) (p : Char → Bool) : Cursor := (c.takeRun p).2

/-- Read one break: a carriage return with a line feed is one, and all but the line and paragraph
separators read as a line feed. Nothing is read where no break stands. -/
def readBreak (c : Cursor) : List Char × Cursor :=
  match c.rest with
  | '\r' :: '\n' :: rest => (['\n'], ⟨rest, c.index + 2, c.line + 1, 0⟩)
  | d :: rest =>
    if isBreak d then
      ([if d == '\u2028' || d == '\u2029' then d else '\n'], ⟨rest, c.index + 1, c.line + 1, 0⟩)
    else ([], c)
  | [] => ([], c)

/-- Skip to the end of the line when a comment stands here. -/
def skipComment (c : Cursor) : Cursor :=
  if c.isAt '#' then c.skipRun (fun d => !isBreak d) else c

/-- Skip gaps and a comment, then the break; nothing else may stand before the break. -/
def finishLine? (c : Cursor) : Option Cursor :=
  let c := (c.skipRun isGap).skipComment
  if atLineEnd c.rest then some c.readBreak.2 else none

end Cursor

end WorkflowRecipes.Yaml
