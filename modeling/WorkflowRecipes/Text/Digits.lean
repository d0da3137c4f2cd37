import WorkflowRecipes.Text.Search

/-!
# Decimal digits

Reading natural numbers from ASCII digits.
-/

namespace WorkflowRecipes.Text

/-- The number that a list of digits stands for; other characters have no meaning here. -/
def valueOfDigits (digits : List Char) : Nat :=
  digits.foldl (fun n c => 10 * n + (c.toNat - '0'.toNat)) 0

/-- The number that a text stands for: ASCII digits only, at least one. -/
def natural? (text : List Char) : Option Nat :=
  if !text.isEmpty && text.all Char.isDigit then some (valueOfDigits text) else none

/-- The number below `bound` that a text stands for. -/
def naturalBelow? (bound : Nat) (text : List Char) : Option Nat :=
  (natural? text).filter (· < bound)

end WorkflowRecipes.Text
