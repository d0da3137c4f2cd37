import WorkflowRecipes.Text.Hex

/-!
# Strings of JSON

A string in double quotes in which quotes, backslashes and the control characters below the space
are escaped. All other characters stand for themselves.
-/

namespace WorkflowRecipes

namespace Text

/-- A character in double quotes. -/
def jsonChar (c : Char) : List Char :=
  match c with
  | '"' => ['\\', '"']
  | '\\' => ['\\', '\\']
  | '\n' => ['\\', 'n']
  | '\r' => ['\\', 'r']
  | '\t' => ['\\', 't']
  | '\x08' => ['\\', 'b']
  | '\x0c' => ['\\', 'f']
  | c => if c.toNat < 0x20 then '\\' :: 'u' :: hexText 4 c.toNat else [c]

end Text

/-- A text in double quotes. -/
def jsonQuoted (text : String) : String :=
  String.ofList ('"' :: text.toList.flatMap Text.jsonChar ++ ['"'])

example : jsonQuoted "a\"b\x01" = "\"a\\\"b\\u0001\"" := by decide

end WorkflowRecipes
