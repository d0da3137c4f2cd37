import WorkflowRecipes.Text.Blank

/-!
# Tables of characters

A table is a text of words such as `41-5A`, `100-136/2` or `C0-D6+20`: hexadecimal code points of
the first and the last character of a run, the step between its characters unless that is one, and,
in a table of a mapping, how much is added to or, behind `~`, taken from the code point.
-/

namespace WorkflowRecipes.Text

/-- A run of characters at equal distances, and what a mapping adds to each. -/
structure Run where
  first : Nat
  last : Nat
  step : Nat
  shift : Int
  deriving Repr, DecidableEq

namespace Run

/-- The value of hexadecimal digits. -/
def hexValue (digits : List Char) : Nat :=
  digits.foldl (fun n c => 16 * n + (if c.isDigit then c.toNat - 48 else c.toNat - 55)) 0

/-- A number in a word of a table, and what follows it. -/
def number (word : List Char) : Nat × List Char :=
  let isDigit (c : Char) := c.isDigit || ('A' ≤ c && c ≤ 'F')
  (hexValue (word.takeWhile isDigit), word.dropWhile isDigit)

/-- The run that a word of a table describes. -/
def ofWord (word : List Char) : Run :=
  let (first, rest) := number word
  let (last, rest) := match rest with
    | '-' :: more => number more
    | _ => (first, rest)
  let (step, rest) := match rest with
    | '/' :: more => number more
    | _ => (1, rest)
  let shift : Int := match rest with
    | '+' :: more => (number more).1
    | '~' :: more => -((number more).1 : Int)
    | _ => 0
  ⟨first, last, step, shift⟩

/-- The runs of a table. -/
def table (text : String) : List Run := (words text.toList).map ofWord

/-- Whether a code point belongs to a run. -/
def has (run : Run) (n : Nat) : Bool :=
  run.first ≤ n && n ≤ run.last && (n - run.first) % run.step == 0

end Run

example : Run.table "41-5A+20 100-136/2" = [⟨0x41, 0x5A, 1, 0x20⟩, ⟨0x100, 0x136, 2, 0⟩] := by
  decide

end WorkflowRecipes.Text
