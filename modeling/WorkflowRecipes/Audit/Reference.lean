import WorkflowRecipes.ActionRef
import WorkflowRecipes.Audit.Finding
import WorkflowRecipes.Pattern.Reader

/-!
# References to actions and images

References that can come to mean something else, references that are known to be bad, and commits
that a remark gives a version.
-/

namespace WorkflowRecipes

/-- A digit of base sixteen in small letters. -/
def isSmallHex (c : Char) : Bool := c.isDigit || ('a' ≤ c && c ≤ 'f')

/-- A digit of base sixteen. -/
def isHex (c : Char) : Bool := isSmallHex c || ('A' ≤ c && c ≤ 'F')

/-- Whether a text consists of `count` characters of a kind. -/
def isRunOf (count : Nat) (kind : Char → Bool) (text : String) : Bool :=
  text.length == count && text.toList.all kind

namespace Unpinned

open Pattern

/-- The number of digits of a commit. -/
def commitLength : Nat := 40

/-- The branches that move. -/
def branches : List String := ["main", "master", "HEAD", "latest"]

/-- Numbers with points between them. -/
def numbers : Pattern :=
  let digits := many1 (.one Text.isDecimalDigit)
  digits ++ many (text "." ++ digits)

/-- A ref that can be moved: a branch or a version. -/
def mutableRef : Pattern :=
  anyOf (maybe (text "v") ++ numbers) (branches.map text)

/-- An owner and a repository with no more parts. -/
def repository : Pattern := many1 (noneOf "/@") ++ text "/" ++ many1 (noneOf "/@")

/-- Whether a reference without further parts has a ref that can be moved. -/
def isMutable (reference : String) : Bool :=
  (repository ++ maybe (text "@" ++ mutableRef)).describes reference

/-- Why a reference can come to mean something else. -/
def reason? (reference : String) : Option String :=
  let action := ActionRef.ofText reference
  if !action.isRemote then none
  else
    match action.version with
    | none => some ("unpinned action: " ++ action.name ++ " has no version")
    | some version =>
      if isRunOf commitLength isHex version || !isMutable reference then none
      else some ("unpinned action: " ++ action.name ++ " uses mutable ref " ++ version)

/-- The steps whose action can come to mean something else. -/
def findings (doc : Value) : List Finding :=
  doc.steps.filterMap fun (location, step) =>
    (step.uses?.bind reason?).map fun reason => ⟨location.key "uses", reason⟩

end Unpinned

namespace Image

/-- Whether an image is named without the digest of its content. -/
def isUnpinned (image : String) : Bool :=
  let name := (dropPrefix? image "docker://").getD image
  match cutAt? name '@' with
  | none => true
  | some (_, digest) => !((dropPrefix? digest "sha256:").any (isRunOf 64 isSmallHex))

/-- The images without a digest. -/
def findings (doc : Value) : List Finding :=
  Finding.underTextKey doc "image" fun image =>
    if isUnpinned image then
      some ("Docker image '" ++ image ++ "' is not pinned to a digest. Consider pinning to a " ++
        "specific digest for security and reproducibility.")
    else none

end Image

/-- The options for forbidding references. -/
structure Forbidden where
  actions : List String := []
  patterns : List String := []
  deriving Repr, DecidableEq

namespace Forbidden

/-- The references that are known to be bad. -/
def knownActions : List String :=
  ["actions/checkout@v1", "actions/checkout@v2", "actions/setup-node@v1", "actions/setup-node@v2",
    "actions/cache@v1", "actions/cache@v2"]

/-- The parts of references that are suspicious. -/
def knownPatterns : List String :=
  ["run", "exec", "eval", "malicious-org/", "download-and-run", "execute-script"]

/-- The problems with the options. -/
def problems (options : Forbidden) : List String :=
  if options.patterns.any isBlankText then
    ["additional-suspicious-patterns must not contain empty patterns"]
  else []

/-- The longest of some texts, counted in octets; of several the last. -/
def longest? (texts : List String) : Option String :=
  texts.foldl (fun best text =>
    match best with
    | none => some text
    | some b => if b.utf8ByteSize ≤ text.utf8ByteSize then some text else some b) none

/-- The longest suspicious part of a reference. -/
def suspicious? (options : Forbidden) (reference : String) : Option String :=
  let lower := lowercase reference
  longest? ((knownPatterns ++ options.patterns).filter fun part => holds lower (lowercase part))

/-- What is wrong with a reference. -/
def violation? (options : Forbidden) (reference : String) : Option String :=
  let action := ActionRef.ofText reference
  if !action.isRemote then none
  else if knownActions.contains reference || options.actions.contains reference then
    some ("Action '" ++ reference ++ "' is known to have security vulnerabilities. Consider " ++
      "upgrading to a more recent version or using an alternative.")
  else
    match options.suspicious? reference with
    | some part =>
      some ("Action '" ++ reference ++ "' contains suspicious pattern '" ++ part ++ "'. Review " ++
        "this action carefully for potential security risks.")
    | none =>
      match action.owner? with
      | none => none
      | some owner =>
        if !startsWith reference "actions/" && owner.length == 1 then
          some ("Action '" ++ reference ++ "' is from a single-character organization '" ++
            owner ++ "' which may be suspicious. Verify the action's authenticity.")
        else none

/-- The forbidden references. -/
def findings (options : Forbidden) (doc : Value) : List Finding :=
  Finding.underTextKey doc "uses" options.violation?

end Forbidden

namespace CommitRemark

open Pattern

/-- Any blanks. -/
def blanks : Pattern := many (.one Text.isBlank)

/-- A remark that names a version. -/
def versionRemark : Pattern :=
  let remark := text "#" ++ blanks
  let v := maybe (text "v")
  anyOf (remark ++ text "tag" ++ blanks ++ text "=" ++ blanks ++ maybe (oneOf "vV") ++
      Unpinned.numbers)
    [remark ++ v ++ Unpinned.numbers ++ blanks ++ atEnd,
      remark ++ (text "version" ||| text "ver") ++ blanks ++ oneOf ":=" ++ blanks ++ v ++
        Unpinned.numbers]

/-- Whether a text holds a remark that names a version. -/
def namesVersion (line : List Char) : Bool := versionRemark.occursIn line

/-- Whether a line is a remark. -/
def isRemark (line : List Char) : Bool := (Text.trimStart line).head? == some '#'

/-- Whether a line with the reference is followed on the line, or preceded by remarks right above
it, that name a version. `above` holds the lines before, the nearest first. -/
def isVersionedFrom (reference : List Char) (above : List (List Char)) :
    List (List Char) → Bool
  | [] => false
  | line :: below =>
    (match Text.splitAt? reference line with
    | some (_, behind) => namesVersion behind || (above.takeWhile isRemark).any namesVersion
    | none => false) || isVersionedFrom reference (line :: above) below

/-- Whether a file gives the commit of a reference a version. -/
def isVersioned (file reference : String) : Bool :=
  isVersionedFrom reference.toList [] (Text.lines file.toList)

/-- The problem with a reference in a file. -/
def problem? (file reference : String) : Option String :=
  let action := ActionRef.ofText reference
  if action.isRemote && action.version.any (isRunOf Unpinned.commitLength isSmallHex) &&
      isVersioned file reference then
    some ("Action is pinned to a commit SHA but has a version comment that may not match. " ++
      "Verify the comment reflects the actual pinned version.")
  else none

/-- The commits that a remark gives a version. -/
def findings (file : String) (doc : Value) : List Finding :=
  Finding.underTextKey doc "uses" (problem? file)

end CommitRemark

end WorkflowRecipes
