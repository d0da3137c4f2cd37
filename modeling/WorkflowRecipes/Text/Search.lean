/-!
# Finding text in text

The functions work on lists of characters; the ones at the end lift them to strings.
-/

namespace WorkflowRecipes.Text

/-- What follows `p` in a text that starts with it. -/
def dropPrefix? : List Char → List Char → Option (List Char)
  | [], s => some s
  | _ :: _, [] => none
  | c :: p, d :: s => if c = d then dropPrefix? p s else none

theorem dropPrefix?_eq_some_iff {p s r : List Char} : dropPrefix? p s = some r ↔ s = p ++ r := by
  induction p generalizing s with
  | nil => simp [dropPrefix?]
  | cons c p ih =>
    cases s with
    | nil => simp [dropPrefix?]
    | cons d s =>
      by_cases h : c = d
      · subst h; simp [dropPrefix?, ih]
      · simp [dropPrefix?, h, Ne.symm h]

/-- Whether a text starts with `p`. -/
def startsWith (p s : List Char) : Bool := (dropPrefix? p s).isSome

/-- The text before and after the first occurrence of `p`. -/
def splitAt? (p : List Char) : List Char → Option (List Char × List Char)
  | [] => if p.isEmpty then some ([], []) else none
  | c :: s =>
    match dropPrefix? p (c :: s) with
    | some rest => some ([], rest)
    | none => (splitAt? p s).map fun (before, after) => (c :: before, after)

/-- Whether `p` occurs anywhere in a text. -/
def occursIn (p s : List Char) : Bool := (splitAt? p s).isSome

/-- The text before and after the first character equal to `sep`. -/
def splitOnce (sep : Char) : List Char → Option (List Char × List Char)
  | [] => none
  | c :: s =>
    if c = sep then some ([], s)
    else (splitOnce sep s).map fun (before, after) => (c :: before, after)

/-- The pieces of a text between the characters equal to `sep`; always at least one piece. -/
def pieces (sep : Char) : List Char → List (List Char)
  | [] => [[]]
  | c :: s =>
    if c = sep then [] :: pieces sep s
    else
      match pieces sep s with
      | [] => [[c]]
      | first :: rest => (c :: first) :: rest

/-- The lines of a text: each ends with a line feed, or a carriage return and a line feed, and a
last line without one counts unless it is empty. -/
def lines (s : List Char) : List (List Char) :=
  let rec ended : List (List Char) → List (List Char)
    | [] => []
    | [last] => if last.isEmpty then [] else [last]
    | line :: next :: rest =>
      (if line.getLast? = some '\r' then line.dropLast else line) :: ended (next :: rest)
  ended (pieces '\n' s)

/-- The lines of a text with the line feeds at their ends. A last line without one counts unless it
is empty. -/
def fullLines (s : List Char) : List (List Char) :=
  let rec ended : List (List Char) → List (List Char)
    | [] => []
    | [last] => if last.isEmpty then [] else [last]
    | line :: next :: rest => (line ++ ['\n']) :: ended (next :: rest)
  ended (pieces '\n' s)

/-- Lists of characters joined with a separator. -/
def join (sep : List Char) : List (List Char) → List Char
  | [] => []
  | [one] => one
  | one :: next :: rest => one ++ sep ++ join sep (next :: rest)

end WorkflowRecipes.Text

namespace WorkflowRecipes

/-- Whether a string starts with another. -/
def startsWith (s p : String) : Bool := Text.startsWith p.toList s.toList

/-- Whether a string holds another. -/
def holds (s p : String) : Bool := Text.occursIn p.toList s.toList

/-- What follows `p` in a string that starts with it. -/
def dropPrefix? (s p : String) : Option String :=
  (Text.dropPrefix? p.toList s.toList).map String.ofList

/-- A string cut at the first character equal to `sep`. -/
def cutAt? (s : String) (sep : Char) : Option (String × String) :=
  (Text.splitOnce sep s.toList).map fun (a, b) => (String.ofList a, String.ofList b)

end WorkflowRecipes
