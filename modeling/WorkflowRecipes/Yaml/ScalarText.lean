import WorkflowRecipes.Yaml.Cursor

/-!
# The text of a scalar

Readers for the three ways to write a scalar. Each starts at the scalar's first character and gives
the text that is meant, or nothing when the scalar is malformed. Lines fold: one break between two
lines reads as a space, and of several the first is dropped.

The argument `size` bounds every loop; the length of the whole text is always enough.
-/

namespace WorkflowRecipes.Yaml

/-- The breaks that follow a first one, with the gaps around them skipped. A tab left of the column
`limit` is malformed. -/
def furtherBreaks? (limit : Nat) : Nat → Cursor → Option (List Char × Cursor)
  | 0, c => some ([], c)
  | n + 1, c =>
    if c.isAt '\t' && decide (c.column < limit) then none
    else if c.sees isGap then furtherBreaks? limit n c.skip
    else if c.sees isBreak then
      let (one, c) := c.readBreak
      (furtherBreaks? limit n c).map fun (more, c) => (one ++ more, c)
    else some ([], c)

/-- What stands between two runs of a folded scalar: its text, whether a break was crossed, and the
cursor after it. -/
def foldGap? (limit size : Nat) (c : Cursor) : Option (List Char × Bool × Cursor) :=
  let (gaps, c) := c.takeRun isGap
  if c.sees isBreak then
    let (first, c) := c.readBreak
    (furtherBreaks? limit size c).map fun (more, c) =>
      let text := if first = ['\n'] then (if more.isEmpty then [' '] else more) else first ++ more
      (text, true, c)
  else some (gaps, false, c)

/-! ## Plain scalars -/

/-- Characters that delimit flow collections. -/
def isFlowDelimiter (c : Char) : Bool :=
  c == ',' || c == '[' || c == ']' || c == '{' || c == '}'

/-- The part of a plain scalar up to the next gap, break or indicator. In a flow collection a colon
directly before a delimiter is malformed. -/
def plainRun? (flow : Bool) : List Char → Option (List Char × Nat × List Char)
  | [] => some ([], 0, [])
  | d :: s =>
    if isGap d || isBreak d then some ([], 0, d :: s)
    else if flow && d == ':' && (s.head?.any fun e => isFlowDelimiter e || e == '?') then none
    else if (d == ':' && atWordEnd s) || (flow && isFlowDelimiter d) then some ([], 0, d :: s)
    else (plainRun? flow s).map fun (run, n, rest) => (d :: run, n + 1, rest)

/-- The lines of a plain scalar. `text` is what is read so far, in reverse; `gap` stands between it
and the next run; `broken` tells whether a break was crossed since the last run. -/
def plainLines? (flow : Bool) (indent size : Nat) :
    Nat → Cursor → List Char → List Char → Bool → Option (List Char × Bool × Cursor)
  | 0, _, _, _, _ => none
  | n + 1, c, text, gap, broken =>
    if c.isAt '#' then some (text.reverse, broken, c)
    else
      (plainRun? flow c.rest).bind fun (run, k, rest) =>
        let c := c.past k rest
        let (text, broken) :=
          if run.isEmpty then (text, broken)
          else (run.reverse ++ gap.reverse ++ text, false)
        if c.sees fun d => isGap d || isBreak d then
          (foldGap? indent size c).bind fun (gap, broken, c) =>
            if !flow && decide (c.column < indent) then some (text.reverse, broken, c)
            else plainLines? flow indent size n c text gap broken
        else some (text.reverse, broken, c)

/-- A plain scalar: its text, whether the cursor has moved to a later line, and the cursor. In block
context every line after the first starts at column `indent` or later. -/
def plainScalar? (flow : Bool) (indent size : Nat) (c : Cursor) :
    Option (List Char × Bool × Cursor) :=
  plainLines? flow indent size (size + 1) c [] [] false

/-! ## Quoted scalars -/

/-- The value of a hexadecimal digit. -/
def hexValue? (c : Char) : Option Nat :=
  if '0' ≤ c && c ≤ '9' then some (c.toNat - '0'.toNat)
  else if 'a' ≤ c && c ≤ 'f' then some (c.toNat - 'a'.toNat + 10)
  else if 'A' ≤ c && c ≤ 'F' then some (c.toNat - 'A'.toNat + 10)
  else none

/-- The value of the next `n` hexadecimal digits, continuing `acc`, and what follows them. -/
def hexDigits? : Nat → Nat → List Char → Option (Nat × List Char)
  | 0, acc, s => some (acc, s)
  | _ + 1, _, [] => none
  | n + 1, acc, c :: s => (hexValue? c).bind fun d => hexDigits? n (16 * acc + d) s

/-- The character that a one-letter escape stands for. -/
def shortEscape? (c : Char) : Option Char :=
  match c with
  | '0' => some '\x00'
  | 'a' => some '\x07'
  | 'b' => some '\x08'
  | 't' | '\t' => some '\t'
  | 'n' => some '\n'
  | 'v' => some '\x0b'
  | 'f' => some '\x0c'
  | 'r' => some '\r'
  | 'e' => some '\x1b'
  | ' ' => some ' '
  | '"' => some '"'
  | '/' => some '/'
  | '\\' => some '\\'
  | 'N' => some '\u0085'
  | '_' => some '\u00a0'
  | 'L' => some '\u2028'
  | 'P' => some '\u2029'
  | _ => none

/-- How many hexadecimal digits follow an escape letter. -/
def escapeWidth? (c : Char) : Option Nat :=
  match c with
  | 'x' => some 2
  | 'u' => some 4
  | 'U' => some 8
  | _ => none

/-- The character that an escape stands for, how many characters follow the escape letter, and what
follows the escape. -/
def escape? (letter : Char) (s : List Char) : Option (Char × Nat × List Char) :=
  match shortEscape? letter with
  | some c => some (c, 0, s)
  | none =>
    (escapeWidth? letter).bind fun width =>
      (hexDigits? width 0 s).bind fun (value, rest) =>
        if value.isValidChar then some (Char.ofNat value, width, rest) else none

/-- The part of a quoted scalar up to the next gap, break or closing quote, added to `text` in
reverse. The flag tells whether it ends with an escaped break, which is skipped. -/
def quotedRun? (single : Bool) : Nat → Cursor → List Char → Option (List Char × Bool × Cursor)
  | 0, c, text => some (text, false, c)
  | n + 1, c, text =>
    match c.rest with
    | [] => some (text, false, c)
    | d :: s =>
      if isGap d || isBreak d then some (text, false, c)
      else if single then
        if d == '\'' then
          match s with
          | '\'' :: rest => quotedRun? single n (c.past 2 rest) ('\'' :: text)
          | _ => some (text, false, c)
        else quotedRun? single n (c.past 1 s) (d :: text)
      else if d == '"' then some (text, false, c)
      else if d == '\\' then
        match s with
        | [] => none
        | letter :: rest =>
          if isBreak letter then some (text, true, c.skip.readBreak.2)
          else
            (escape? letter rest).bind fun (e, k, rest) =>
              quotedRun? single n (c.past (2 + k) rest) (e :: text)
      else quotedRun? single n (c.past 1 s) (d :: text)

/-- The lines of a quoted scalar up to its closing quote. -/
def quotedLines? (single : Bool) (size : Nat) :
    Nat → Cursor → List Char → Option (List Char × Cursor)
  | 0, _, _ => none
  | n + 1, c, text =>
    if c.rest.isEmpty then none
    else
      (quotedRun? single size c text).bind fun (text, escaped, c) =>
        if c.isAt (if single then '\'' else '"') then some (text.reverse, c.skip)
        else if escaped then
          (furtherBreaks? 0 size c).bind fun (gap, c) =>
            quotedLines? single size n c (gap.reverse ++ text)
        else
          (foldGap? 0 size c).bind fun (gap, _, c) =>
            quotedLines? single size n c (gap.reverse ++ text)

/-- A quoted scalar, the cursor being at its opening quote. -/
def quotedScalar? (size : Nat) (c : Cursor) : Option (List Char × Cursor) :=
  quotedLines? (c.isAt '\'') size (size + 1) c.skip []

/-! ## Block scalars -/

/-- What happens to the breaks at the end of a block scalar: all are dropped, one is kept, or all
are kept. -/
inductive Chomping where
  | strip
  | clip
  | keep
  deriving Repr, DecidableEq

/-- The chomping that an indicator asks for. -/
def Chomping.ofChar? (c : Char) : Option Chomping :=
  if c == '+' then some .keep else if c == '-' then some .strip else none

/-- The indentation that a digit asks for; zero is malformed. -/
def indentDigit? (c : Char) : Option Nat :=
  if '1' ≤ c && c ≤ '9' then some (c.toNat - '0'.toNat) else none

/-- The indicators after `|` or `>`, in either order: chomping, and the number of indentation
columns where one is given. -/
def blockHeader? (c : Cursor) : Option (Chomping × Option Nat × Cursor) :=
  match c.rest with
  | [] => some (.clip, none, c)
  | d :: s =>
    match Chomping.ofChar? d with
    | some chomping =>
      match s with
      | e :: _ =>
        if e.isDigit then (indentDigit? e).map fun n => (chomping, some n, c.skip.skip)
        else some (chomping, none, c.skip)
      | [] => some (chomping, none, c.skip)
    | none =>
      if d.isDigit then
        (indentDigit? d).map fun n =>
          match s.head?.bind Chomping.ofChar? with
          | some chomping => (chomping, some n, c.skip.skip)
          | none => (.clip, some n, c.skip)
      else some (.clip, none, c)

/-- Skip the indentation of the next line that holds text, reading the breaks of the empty lines
before it. With no `indent` given every space counts as indentation. The number is the widest
indentation seen. A tab inside the indentation is malformed. -/
def blockIndentation? (indent : Option Nat) :
    Nat → Cursor → Nat → Option (List Char × Nat × Cursor)
  | 0, c, widest => some ([], widest, c)
  | n + 1, c, widest =>
    let inside := indent.all fun i => decide (c.column < i)
    if inside && c.isAt ' ' then blockIndentation? indent n c.skip (max widest (c.column + 1))
    else if inside && c.isAt '\t' then none
    else if c.sees isBreak then
      let (one, c) := c.readBreak
      (blockIndentation? indent n c widest).map fun (more, widest, c) => (one ++ more, widest, c)
    else some ([], widest, c)

/-- The lines of a block scalar. `text` is what is read so far, in reverse; `last` is the break of
the last line and `empty` the breaks of the empty lines after it; `spaced` tells whether the last
line started with a gap, which keeps its break from folding. -/
def blockLines? (literal : Bool) (indent size : Nat) :
    Nat → Cursor → List Char → List Char → List Char → Bool →
      Option (List Char × List Char × List Char × Cursor)
  | 0, _, _, _, _, _ => none
  | n + 1, c, text, last, empty, spaced =>
    if c.column != indent || c.rest.isEmpty then some (text, last, empty, c)
    else
      let starts := c.sees isGap
      let glue :=
        if !literal && last == ['\n'] && !spaced && !starts then
          (if empty.isEmpty then [' '] else empty)
        else last ++ empty
      let (line, c) := c.takeRun fun d => !isBreak d
      let (last, c) := c.readBreak
      (blockIndentation? (some indent) size c 0).bind fun (empty, _, c) =>
        blockLines? literal indent size n c (line.reverse ++ glue.reverse ++ text) last empty starts

/-- A block scalar, the cursor being at its indicator. `parent` is the column of the enclosing
block, if there is one; the scalar's lines stand further right. -/
def blockScalar? (parent : Option Nat) (size : Nat) (c : Cursor) : Option (List Char × Cursor) :=
  let literal := c.isAt '|'
  (blockHeader? c.skip).bind fun (chomping, increment, c) =>
    c.finishLine?.bind fun c =>
      let given := increment.map fun n => parent.getD 0 + n
      (blockIndentation? given size c 0).bind fun (empty, widest, c) =>
        let least := match parent with
          | some column => column + 1
          | none => 1
        let indent := given.getD (max widest least)
        (blockLines? literal indent size (size + 1) c [] [] empty false).map
          fun (text, last, empty, c) =>
            let tail := match chomping with
              | .strip => []
              | .clip => last
              | .keep => last ++ empty
            (text.reverse ++ tail, c)

end WorkflowRecipes.Yaml
