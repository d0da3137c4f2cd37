import WorkflowRecipes.Yaml.Page
import WorkflowRecipes.Yaml.Scalar
import WorkflowRecipes.Yaml.Segment
import WorkflowRecipes.Text.Hex
import WorkflowRecipes.Text.Search

/-!
# The written forms of a string

A string is written plain where it reads back as itself, else in single quotes; one with line feeds
as a literal block. Characters that are not printable, and blanks at line breaks, force double
quotes. `Form.ofText` chooses, `Page.string` writes.
-/

namespace WorkflowRecipes.Yaml

/-- The ways to write a string. -/
inductive Form where
  | plain
  | singleQuoted
  | doubleQuoted
  | literal
  deriving Repr, DecidableEq

/-- The characters that stand for themselves outside double quotes. -/
def isPrintable (c : Char) : Bool :=
  let n := c.toNat
  n == 0x0A || (0x20 ≤ n && n ≤ 0x7E) || (0xA0 ≤ n && n ≠ 0xFEFF && n ≠ 0xFFFE && n ≠ 0xFFFF)

/-- Whether some character with the property `p` has one with the property `q` right behind it. -/
def hasPair (p q : Char → Bool) : List Char → Bool
  | [] => false
  | c :: s => (p c && s.head?.any q) || hasPair p q s

/-- A space or a line break. -/
def isSpaceOrBreak (c : Char) : Bool := c == ' ' || isBreak c

/-- Whether a text starts like something other than a plain scalar. -/
def startsAsMark (text : List Char) : Bool :=
  Text.startsWith ['-', '-', '-'] text || Text.startsWith ['.', '.', '.'] text ||
    match text with
    | [] => false
    | c :: rest =>
      "#,[]\x7b\x7d&*!|>'\"%@`".toList.contains c ||
        ((c == '?' || c == ':' || c == '-') && atWordEnd rest)

/-- Whether a text holds a colon at the end of a word or a number sign at the start of one.
`wordStart` tells whether the text starts a word. -/
def holdsMark (wordStart : Bool) : List Char → Bool
  | [] => false
  | c :: rest =>
    (c == ':' && atWordEnd rest) || (c == '#' && wordStart) || holdsMark (isGap c || isBreak c) rest

namespace Form

/-- Whether a text can stand in single quotes. -/
def quotable (text : List Char) : Bool :=
  text.all isPrintable && !hasPair (· == ' ') isBreak text && !hasPair isBreak (· == ' ') text

/-- Whether a text can be a plain scalar. -/
def plainable (text : List Char) : Bool :=
  quotable text && !text.any isBreak && !startsAsMark text && !holdsMark true text &&
    !text.head?.any isSpaceOrBreak && !text.getLast?.any isSpaceOrBreak

/-- Whether a text can be a literal block. -/
def blockable (text : List Char) : Bool :=
  !text.isEmpty && text.all isPrintable && !hasPair (· == ' ') isBreak text &&
    text.getLast? != some ' '

/-- Whether a plain scalar of this text would be a string that no other reading competes with. -/
def readsAsString (text : List Char) : Bool :=
  match Scalar.plain? text with
  | some (.string _) => !Scalar.hasLeadingZero text
  | _ => false

/-- The form of a string; `inline` is the place of a key before its colon. -/
def ofText (text : List Char) (inline : Bool) : Form :=
  let quoted := if quotable text then singleQuoted else doubleQuoted
  if inline && text.any isBreak then doubleQuoted
  else if text.contains '\n' then
    if blockable text && !inline then literal else doubleQuoted
  else if readsAsString text && plainable text then plain
  else quoted

end Form

/-- The escapes with a letter of their own. -/
def letterEscapes : List (Char × Char) :=
  [('\x00', '0'), ('\x07', 'a'), ('\x08', 'b'), ('\t', 't'), ('\n', 'n'), ('\x0b', 'v'),
    ('\x0c', 'f'), ('\r', 'r'), ('\x1b', 'e'), ('"', '"'), ('\\', '\\'), ('\u0085', 'N'),
    ('\u2028', 'L'), ('\u2029', 'P')]

/-- A character in double quotes. -/
def doubleQuotedChar (c : Char) : List Char :=
  match letterEscapes.find? fun e => e.1 == c with
  | some (_, letter) => ['\\', letter]
  | none =>
    if isPrintable c then [c]
    else
      let n := c.toNat
      if n ≤ 0xFF then '\\' :: 'x' :: Text.largeHexText 2 n
      else if n ≤ 0xFFFF then '\\' :: 'u' :: Text.largeHexText 4 n
      else '\\' :: 'U' :: Text.largeHexText 8 n

/-- What follows the bar of a literal block: the indentation where the text does not show it, and a
minus or a plus where the text does not end in exactly one break. -/
def blockHints (text : List Char) : List Char :=
  let indentation := if text.head?.any isSpaceOrBreak then ['2'] else []
  let ending := match text.reverse with
    | [] => ['-']
    | last :: before =>
      if !isBreak last then ['-']
      else if before.isEmpty || before.head?.any isBreak then ['+']
      else []
  indentation ++ ending

namespace Page

/-- Write the lines of a text, each further line at the column `indent`. `fresh` tells that a line
has just been broken. `quote` is doubled. -/
def lines (page : Page) (indent : Nat) (quote : Option Char) : Bool → List Char → Page
  | _, [] => page
  | fresh, c :: rest =>
    if isBreak c then
      lines { page.lineBreak c with opening := true } indent quote true rest
    else if c == ' ' && quote.isSome then lines (page.put c) indent quote fresh rest
    else
      let page := if fresh then page.indentTo indent else page
      let page := if quote == some c then page.put c else page
      lines { page.put c with opening := false } indent quote false rest

/-- Write a string in a form; `indent` is the column of its further lines. -/
def string (page : Page) (indent : Nat) (form : Form) (text : List Char) : Page :=
  match form with
  | .plain => page.space.mark text
  | .singleQuoted =>
    let page := (page.space.mark ['\'']).lines indent (some '\'') false text
    let page := if text.getLast?.any isBreak then page.indentTo indent else page
    page.mark ['\'']
  | .doubleQuoted =>
    page.space.mark ('"' :: text.flatMap doubleQuotedChar ++ ['"'])
  | .literal =>
    let page := (page.space.mark ('|' :: blockHints text)).lineBreak '\n'
    { page with afterBlank := true, opening := true }.lines indent none true text

end Page

end WorkflowRecipes.Yaml
