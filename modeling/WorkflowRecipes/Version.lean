import WorkflowRecipes.Text.Digits

/-!
# Versions of tools

A version is digits in groups with points between them, and then anything behind a minus or a plus
on the same line: `17`, `11.0.17`, `21+35`, `15.0.0-ea.2`. Ranges, names and expressions are no
versions.
-/

namespace WorkflowRecipes.Version

/-- Whether a text is what may follow the first digits of a version. `opened` tells that a point
has just opened a group. -/
def isTail (opened : Bool) : List Char → Bool
  | [] => !opened
  | c :: rest =>
    if c.isDigit then isTail false rest
    else if opened then false
    else if c = '.' then isTail true rest
    else (c = '-' || c = '+') && !rest.contains '\n'

/-- The major number of a version, if the text is one and the number fits in 32 bits. -/
def major? (version : String) : Option Nat :=
  let text := version.toList
  if isTail false (text.dropWhile Char.isDigit) then
    Text.naturalBelow? UInt32.size (text.takeWhile Char.isDigit)
  else none

/-- What replaces a version whose major number is below the least one wanted. -/
def raised? (version : String) (least : Nat) : Option String :=
  match major? version with
  | some major => if major < least then some (toString least) else none
  | none => none

example : major? "15.0.0-ea.2" = some 15 := by decide
example : major? "17." = none := by decide
example : major? "17..1" = none := by decide

end WorkflowRecipes.Version
