import WorkflowRecipes.Text.Search

/-!
# Paths

A path is read as its components: the names between slashes. Empty names count for nothing, and `.`
counts only at the start. A slash at the start is a component of its own.
-/

namespace WorkflowRecipes.Path

/-- The components of a path. -/
def components (path : String) : List String :=
  let names := (Text.pieces '/' path.toList).map String.ofList
  let rooted := startsWith path "/"
  let lead :=
    if rooted then ["/"] else if names.head? == some "." then ["."] else []
  lead ++ names.filter fun name => name != "" && name != "."

/-- A path with its components joined by slashes. -/
def normalize (path : String) : String := "/".intercalate (components path)

/-- The last component, if it is a name. -/
def fileName? (path : String) : Option String :=
  (components path).getLast?.filter fun name => name != "/" && name != "." && name != ".."

/-- What follows the last point of a name, which must not be the first character. -/
def extension? (name : String) : Option String :=
  let chars := name.toList.reverse
  let ending := chars.takeWhile (· != '.')
  let before := chars.drop (ending.length + 1)
  if ending.length < chars.length && !before.isEmpty then some (String.ofList ending.reverse)
  else none

/-- A path that starts at another. -/
def join (directory name : String) : String :=
  if startsWith name "/" then name
  else if directory == "" || directory.toList.getLast? == some '/' then directory ++ name
  else directory ++ "/" ++ name

/-- Whether a piece of a path at a position counts for nothing. -/
def isIdle (position : Nat) (piece : String) : Bool :=
  piece == "" || (piece == "." && 0 < position)

/-- The pieces of a path without those at its end that count for nothing. The pieces come last
first, and `pieces.length` of them stand before the end. -/
def dropIdle : List String → List String
  | [] => []
  | piece :: rest => if isIdle rest.length piece then dropIdle rest else piece :: rest

/-- The path of the directory in which a path stands. -/
def parent? (path : String) : Option String :=
  let pieces := ((Text.pieces '/' path.toList).map String.ofList).reverse
  match dropIdle pieces with
  | [] => none
  | _ :: rest =>
    match (dropIdle rest).reverse with
    | [] => some (if startsWith path "/" then "/" else "")
    | pieces => some ("/".intercalate pieces)

example : parent? "a/./b/" = some "a" := by decide
example : parent? "./x" = some "." ∧ parent? "x" = some "" ∧ parent? "." = some "" := by decide
example : parent? "" = none ∧ parent? "/" = none ∧ parent? "/a" = some "/" := by decide
example : normalize "/a//./b/" = "//a/b" := by decide
example : normalize "././a" = "./a" := by decide

end WorkflowRecipes.Path
