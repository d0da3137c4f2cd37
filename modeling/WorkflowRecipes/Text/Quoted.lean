import WorkflowRecipes.Text.Category

/-!
# Text in messages

A text quoted in a message shows quotes, backslashes and everything invisible as escapes.
-/

namespace WorkflowRecipes.Text

/-- The characters besides marks that join the one before them. -/
def joiners : List Run :=
  Run.table "9BE 9D7 B3E B57 BBE BD7 CC2 CD5-CD6 D3E D57 DCF DDF 1B35 200C 302E-302F FF9E-FF9F
    1133E 11357 114B0 114BD 115AF 11930 1D165 1D16E-1D172 E0020-E007F"

/-- The categories of characters that cannot be seen. -/
def invisibleCategories : List String := ["Cc", "Cf", "Co", "Cn", "Zl", "Zp", "Zs"]

/-- Whether a character is shown as it is. -/
def isVisible (c : Char) : Bool :=
  if c.toNat < 0x80 then 0x20 ≤ c.toNat && c.toNat < 0x7F
  else
    let category := categoryOf c
    !invisibleCategories.contains category && category != "Mn" && category != "Me" &&
      !joiners.any fun run => run.has c.toNat

/-- A character between quotes. -/
def quotedChar (c : Char) : List Char :=
  match c with
  | '\x00' => ['\\', '0']
  | '\t' => ['\\', 't']
  | '\n' => ['\\', 'n']
  | '\r' => ['\\', 'r']
  | '"' => ['\\', '"']
  | '\\' => ['\\', '\\']
  | c =>
    if isVisible c then [c]
    else '\\' :: 'u' :: '\x7b' :: Nat.toDigits 16 c.toNat ++ ['\x7d']

end WorkflowRecipes.Text

namespace WorkflowRecipes

/-- A string quoted in a message. -/
def quoted (s : String) : String :=
  String.ofList ('"' :: s.toList.flatMap Text.quotedChar ++ ['"'])

end WorkflowRecipes
