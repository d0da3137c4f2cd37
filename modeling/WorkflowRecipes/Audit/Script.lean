import WorkflowRecipes.ActionRef
import WorkflowRecipes.Audit.Event
import WorkflowRecipes.Pattern.Reader

/-!
# Scripts

Texts of strangers in scripts, writes to the files that set the environment, commands that were
switched off for good reason, and tricks that hide what a script does.
-/

namespace WorkflowRecipes

namespace Taint

/-- The properties that strangers can set. -/
def foreignProperties : List String :=
  ["github.event.pull_request.title", "github.event.pull_request.body",
    "github.event.pull_request.head.ref", "github.event.pull_request.head.label",
    "github.event.pull_request.head.repo.default_branch", "github.event.pull_request.base.ref",
    "github.event.issue.title", "github.event.issue.body", "github.event.comment.body",
    "github.event.review.body", "github.event.pages[0].page_name",
    "github.event.commits[0].message", "github.event.head_commit.message",
    "github.event.commits[0].author.name", "github.event.commits[0].author.email",
    "github.head_ref"]

/-- The actions that run one of their inputs. -/
def evaluators : List String :=
  ["actions/github-script", "amadevus/pwsh-script", "jannekem/run-python-script-action",
    "cardinalby/js-eval-action"]

/-- The expression that a text starts with, and what follows it: anything without a closing brace
between two braces. -/
def expression? (text : List Char) : Option (List Char × List Char) :=
  (Text.dropPrefix? "$\x7b\x7b".toList text).bind fun inner =>
    let body := inner.takeWhile (· != '\x7d')
    if body.isEmpty then none
    else (Text.dropPrefix? "\x7d\x7d".toList (inner.drop body.length)).map fun rest => (body, rest)

/-- The expressions in a text. One that was read is passed over, which `skip`, the number of its
characters still to come, takes care of. -/
def expressionsFrom : Nat → List Char → List (List Char)
  | _, [] => []
  | skip + 1, _ :: text => expressionsFrom skip text
  | 0, c :: text =>
    match expression? (c :: text) with
    | some (body, rest) => body :: expressionsFrom (text.length - rest.length) text
    | none => expressionsFrom 0 text

/-- The reading of a step's output that a text starts with. -/
def outputAt? (text : List Char) : Option (List Char) :=
  (Text.dropPrefix? "steps.".toList text).bind fun rest =>
    let step := rest.takeWhile (· != '.')
    if step.isEmpty then none
    else
      (Text.dropPrefix? ".outputs.".toList (rest.drop step.length)).bind fun rest =>
        let name := rest.takeWhile fun c => !Text.isBlank c && c != '\x7d'
        if name.isEmpty then none
        else some ("steps.".toList ++ step ++ ".outputs.".toList ++ name)

/-- The first reading of a step's output in a text. -/
def output? : List Char → Option (List Char)
  | [] => none
  | c :: text => outputAt? (c :: text) <|> output? text

/-- What strangers bring into an expression, in words. -/
def foreignPart? (expression : List Char) : Option String :=
  let expression := Text.trim expression
  let named (what : String) := "User-controlled input '" ++ what ++ "'"
  match foreignProperties.find? fun p => Text.occursIn p.toList expression with
  | some property =>
    if expression.contains '(' && expression.contains ')' then
      some "User-controlled input in complex expression"
    else some (named property)
  | none => (output? expression).map fun output => named (String.ofList output)

/-- What strangers bring into a text first, in words. -/
def foreignInput? (text : String) : Option String :=
  (expressionsFrom 0 text.toList).findSome? foreignPart?

/-- What strangers bring into the texts that a step runs. -/
def inStep (location : Location) (step : Entries) : List Finding :=
  let run := (step.text? "run").bind foreignInput?
  let evaluates := step.uses?.any fun uses => evaluators.any fun action => startsWith uses action
  let script := (((step.get? "with").bind fun v => v.get? "script").bind Value.text?).bind
    foreignInput?
  (run.toList.map fun input =>
    ⟨location.key "run", "Potential template injection vulnerability. " ++ input ++
      " used in run command without proper escaping."⟩) ++
    Finding.when evaluates (location.key "uses")
      ("Potential code injection in script input. User-controlled content in script execution " ++
      "context.") ++
    script.toList.map fun input =>
      ⟨location.keys ["with", "script"], "Potential code injection in script. " ++ input ++
        " used in script without proper escaping."⟩

/-- What strangers bring into the texts that a workflow runs. -/
def findings (doc : Value) : List Finding :=
  doc.steps.flatMap fun (location, step) => inStep location step

end Taint

namespace EnvironmentFile

open Pattern

/-- A letter or sign of a text in either case. -/
def anyCaseChar (c : Char) : Pattern := .one fun d => (Text.foldings c).contains d

/-- A text in any case. -/
def anyCaseText (s : String) : Pattern := chain (s.toList.map anyCaseChar)

/-- Any blanks. -/
def blanks : Pattern := many (.one Text.isBlank)

/-- A quote or none. -/
def quote : Pattern := maybe (oneOf "\"'")

/-- The environment file as a variable of a shell. -/
def shellName : Pattern :=
  quote ++ text "$" ++ maybe (text "\x7b") ++ anyCaseText "GITHUB_ENV" ++ maybe (text "\x7d") ++
    quote

/-- The sign that sends output to a file. -/
def redirect : Pattern := text ">" ++ maybe (text ">") ++ blanks

/-- A command for files, with the environment file somewhere behind it on the line. -/
def cmdlet (name : String) : Pattern :=
  anyCaseText name ++ many (noneOf "\n") ++ anyCaseText "$env:GITHUB_ENV"

/-- A write to the environment file, or any mention of the path file. -/
def write : Pattern :=
  anyOf (redirect ++ shellName)
    [redirect ++ quote ++ anyCaseText "%GITHUB_ENV%" ++ quote,
      redirect ++ quote ++ anyCaseText "$env:GITHUB_ENV" ++ quote,
      cmdlet "Out-File", cmdlet "Add-Content", cmdlet "Set-Content", cmdlet "Tee-Object",
      text "|" ++ blanks ++ anyCaseText "tee" ++ many1 (.one Text.isBlank) ++ shellName,
      anyCaseText "GITHUB_PATH"]

/-- A line that sends a fixed text to a file. -/
def fixedEcho : Pattern :=
  atLineStart ++ blanks ++ text "echo" ++ many1 (.one Text.isBlank) ++ quote ++
    many (noneOf "$\x60") ++ quote ++ blanks ++ text ">>"

/-- Whether a script writes fixed texts only. -/
def isFixed (script : String) : Bool :=
  fixedEcho.isIn script && !holds script "$" && !holds script "\x60"

/-- The file that a script writes to. -/
def fileName (script : String) : String :=
  let upper := asciiUppercase script
  if holds upper "GITHUB_ENV" then "GITHUB_ENV"
  else if holds upper "GITHUB_PATH" then "GITHUB_PATH"
  else "environment file"

/-- The problem with a script. -/
def problem? (script : String) : Option String :=
  if write.isIn script && !isFixed script then
    some ("Write to " ++ fileName script ++ " may allow code execution in a workflow with " ++
      "dangerous triggers. This can lead to code injection when the written content includes " ++
      "user-controlled data. Ensure any dynamic content is properly sanitized or avoid writing " ++
      "to environment files in workflows triggered by untrusted events.")
  else none

/-- The writes to the environment file in a workflow with a privileged event. -/
def findings (doc : Value) : List Finding :=
  if Event.isPrivileged doc then Finding.underTextKey doc "run" problem? else []

end EnvironmentFile

namespace InsecureCommand

/-- The variable that switches the insecure commands on. -/
def switchName : String := "ACTIONS_ALLOW_UNSECURE_COMMANDS"

/-- Whether a text says yes. -/
def isTruthy (text : String) : Bool :=
  ["true", "1", "yes", "on"].contains (asciiLowercase (trimmed text))

/-- The places where the insecure commands are switched on. -/
def findings (doc : Value) : List Finding :=
  Finding.underKey doc switchName fun value =>
    if value.scalarText?.any isTruthy then
      some ("Insecure commands are enabled via ACTIONS_ALLOW_UNSECURE_COMMANDS. This allows " ++
        "dangerous workflow commands that can lead to code injection. Remove this environment " ++
        "variable to disable insecure commands.")
    else none

end InsecureCommand

namespace Obfuscation

open Pattern

/-- Tricks with quotes and braces in expressions. -/
def trick : Pattern :=
  anyOf (text "$\x7b\x7b" ++ many (noneOf "\x7d") ++ oneOf "'\"" ++ text "\x7d")
    [.times (oneOf "'\"") 2 none, text "\x7b\x7b" ++ many (noneOf "\x7d") ++ text "$"]

/-- Whether the name of an action with a ref has empty parts or parts that lead elsewhere. -/
def hidesPath (action : ActionRef) : Bool :=
  action.version.isSome &&
    (holds action.name "//" ||
      (Text.pieces '/' action.name.toList).any fun part => part == ['.'] || part == ['.', '.'])

/-- The problem with the value under a key. -/
def problem? (key text : String) : Option String :=
  let action := ActionRef.ofText text
  if key = "uses" ∧ action.isRemote ∧ hidesPath action then
    some ("Action reference contains obfuscated path components that may hide the actual action " ++
      "being used.")
  else if key = "run" ∧ trick.isIn text then
    some ("Contains potentially obfuscated GitHub Actions expressions that may be attempting to " ++
      "hide malicious code.")
  else none

/-- The references and scripts that hide something. -/
def findings (doc : Value) : List Finding :=
  doc.entriesWithin.filterMap fun (location, key, value) =>
    (value.text?.bind (problem? key)).map fun message => ⟨location, message⟩

end Obfuscation

end WorkflowRecipes
