import WorkflowRecipes.Path.Basic

/-!
# Globs

A glob describes paths: `?` is one character, `*` any text, both within a component; `**` as a whole
component is any number of directories, or everything if it stands at the end. A bracket lists
characters and ranges, with `!` in front all others. Braces mean themselves.
-/

namespace WorkflowRecipes

/-- A part of a glob. A character class is a list of ranges. -/
inductive GlobPart where
  | char (c : Char)
  | anyChar
  | oneOf (ranges : List (Char × Char))
  | noneOf (ranges : List (Char × Char))
  | anyText
  | anyDirectories
  deriving Repr, DecidableEq

/-- What is wrong with the text of a glob. -/
inductive GlobFault where
  | manyStars
  | partOfComponent
  | openClass
  deriving Repr, DecidableEq

/-- A fault and the position where it shows. -/
structure GlobError where
  position : Nat
  fault : GlobFault
  deriving Repr, DecidableEq

namespace GlobError

/-- The wording of a fault. -/
def faultText : GlobFault → String
  | .manyStars => "wildcards are either regular `*` or recursive `**`"
  | .partOfComponent => "recursive wildcards must form a single path component"
  | .openClass => "invalid range pattern"

/-- The wording of an error. -/
def message (error : GlobError) : String :=
  "Pattern syntax error near position " ++ toString error.position ++ ": " ++ faultText error.fault

end GlobError

namespace Glob

/-- The ranges of a character class. -/
def ranges : List Char → List (Char × Char)
  | first :: '-' :: last :: rest => (first, last) :: ranges rest
  | c :: rest => (c, c) :: ranges rest
  | [] => []

/-- The text of a class up to its bracket, which cannot be the first character, and the rest. -/
def classText? : List Char → Option (List Char × List Char)
  | [] => none
  | first :: rest =>
    (Text.splitOnce ']' rest).map fun (inner, after) => (first :: inner, after)

/-- One part at the start of a text, and how many characters it takes. `position` is the place of
the text in the glob, `opens` tells whether a component starts there. -/
def part? (position : Nat) (opens : Bool) :
    List Char → Except GlobError (Option (GlobPart × Nat))
  | [] => .ok none
  | '?' :: _ => .ok (some (.anyChar, 1))
  | '*' :: '*' :: '*' :: _ => .error ⟨position + 2, .manyStars⟩
  | '*' :: '*' :: rest =>
    if !opens then .error ⟨position - 1, .partOfComponent⟩
    else
      match rest with
      | [] => .ok (some (.anyDirectories, 2))
      | '/' :: _ => .ok (some (.anyDirectories, 3))
      | _ => .error ⟨position + 2, .partOfComponent⟩
  | '*' :: _ => .ok (some (.anyText, 1))
  | '[' :: '!' :: rest =>
    match classText? rest with
    | some (inner, _) => .ok (some (.noneOf (ranges inner), inner.length + 3))
    | none => .error ⟨position, .openClass⟩
  | '[' :: rest =>
    match classText? rest with
    | some (inner, _) => .ok (some (.oneOf (ranges inner), inner.length + 2))
    | none => .error ⟨position, .openClass⟩
  | c :: _ => .ok (some (.char c, 1))

/-- The parts before `part`, the last of them first, with it added. Directories behind directories
are the same directories, unless nothing else precedes. -/
def push (before : List GlobPart) (part : GlobPart) : List GlobPart :=
  if part = .anyDirectories ∧ 1 < before.length ∧ before.head? = some .anyDirectories then before
  else part :: before

/-- The parts of the text that stands at `position`. Every part takes a character, so the length of
the text bounds their number. -/
def partsFrom : Nat → Nat → Bool → List GlobPart → List Char → Except GlobError (List GlobPart)
  | 0, _, _, before, _ => .ok before.reverse
  | n + 1, position, opens, before, text =>
    match part? position opens text with
    | .error e => .error e
    | .ok none => .ok before.reverse
    | .ok (some (part, taken)) =>
      let slash := (text.take taken).getLast? == some '/'
      partsFrom n (position + taken) slash (push before part) (text.drop taken)

/-- The parts of a glob. -/
def parse (text : String) : Except GlobError (List GlobPart) :=
  partsFrom text.length 0 true [] text.toList

/-- Whether a character lies in one of the ranges. -/
def inRanges (ranges : List (Char × Char)) (c : Char) : Bool :=
  ranges.any fun (first, last) => first ≤ c && c ≤ last

/-- Whether a part that stands for one character stands for `c`. -/
def admits (part : GlobPart) (c : Char) : Bool :=
  match part with
  | .char d => c == d
  | .anyChar => c != '/'
  | .oneOf ranges => c != '/' && inRanges ranges c
  | .noneOf ranges => c != '/' && !inRanges ranges c
  | .anyText | .anyDirectories => false

/-- Whether some rest of the text satisfies `k`, where only characters of the same component may be
passed over. -/
def laterInComponent (k : List Char → Bool) : List Char → Bool
  | [] => k []
  | c :: rest => k (c :: rest) || (c != '/' && laterInComponent k rest)

/-- Whether some rest of the text that starts behind a slash, or the empty rest, satisfies `k`. -/
def laterComponent (k : List Char → Bool) : List Char → Bool
  | [] => k []
  | c :: rest => (c == '/' && k rest) || laterComponent k rest

/-- Whether the parts describe the text. -/
def describes : List GlobPart → List Char → Bool
  | [], text => text.isEmpty
  | .anyText :: parts, text => laterInComponent (describes parts) text
  | .anyDirectories :: parts, text => describes parts text || laterComponent (describes parts) text
  | part :: parts, text =>
    match text with
    | [] => false
    | c :: rest => admits part c && describes parts rest

/-- Whether a path fits a glob. A faulty glob fits nothing. -/
def fits (glob path : String) : Bool :=
  match parse glob with
  | .ok parts => describes parts (Path.normalize path).toList
  | .error _ => false

/-- The problem with a glob, if any. -/
def problem? (glob : String) : Option String :=
  match parse glob with
  | .ok _ => none
  | .error e => some ("invalid glob '" ++ glob ++ "': " ++ e.message)

end Glob

end WorkflowRecipes
