import WorkflowRecipes.Audit.Finding
import WorkflowRecipes.Pattern.Reader

/-!
# Permissions

Permissions that reach too far, secrets that are all passed on, and conditions that trust an actor
whose name anyone can imitate.
-/

namespace WorkflowRecipes

namespace Permission

/-- The scopes in which writing is a high risk. -/
def highRisk : List String :=
  ["actions", "attestations", "contents", "deployments", "id-token", "issues", "packages", "pages",
    "pull-requests"]

/-- The scopes in which writing is a medium risk. -/
def mediumRisk : List String :=
  ["checks", "discussions", "repository-projects", "security-events"]

/-- The risky grants of writing, in words. -/
def writeGrants (permissions : Entries) : List String :=
  permissions.filterMap fun (scope, level) =>
    if level.text? = some "write" then
      scope.text?.bind fun scope =>
        if highRisk.contains scope then some (scope ++ ": write (high risk)")
        else if mediumRisk.contains scope then some (scope ++ ": write (medium risk)")
        else none
    else none

/-- The problem with permissions. -/
def problem? : Value → Option String
  | .string "write-all" =>
    some ("Uses 'write-all' permissions which grants excessive access. Consider using specific " ++
      "permissions instead.")
  | .string "read-all" =>
    some ("Uses 'read-all' permissions. Consider using specific permissions if only certain " ++
      "resources need to be accessed.")
  | .mapping permissions =>
    match writeGrants permissions with
    | [] => none
    | grants =>
      some ("Contains potentially excessive write permissions: " ++ ", ".intercalate grants ++
        ". Consider whether these permissions are necessary and if they can be scoped more " ++
        "narrowly.")
  | _ => none

/-- The permissions that reach too far. -/
def findings (doc : Value) : List Finding := Finding.underKey doc "permissions" problem?

end Permission

namespace InheritedSecret

/-- The calls that pass all secrets on. -/
def findings (doc : Value) : List Finding :=
  Finding.underTextKey doc "secrets" fun text =>
    if text = "inherit" then
      some ("This reusable workflow unconditionally inherits all parent secrets. Consider " ++
        "explicitly passing only the required secrets to follow the principle of least " ++
        "privilege and reduce the risk of secret exposure to called workflows.")
    else none

end InheritedSecret

namespace BotCondition

open Pattern

/-- The numbers of well-known bots. -/
def knownBots : List String := ["29110", "49699333", "27856297", "29139614"]

/-- Any blanks. -/
def blanks : Pattern := many (.one Text.isBlank)

/-- Either quote. -/
def quote : Pattern := oneOf "'\""

/-- Anything but quotes. -/
def unquoted : Pattern := many (noneOf "'\"")

/-- A comparison of a property with a name in quotes. -/
def equals (property : Pattern) (name : Pattern) : Pattern :=
  property ++ blanks ++ text "==" ++ blanks ++ quote ++ name ++ quote

/-- A comparison of an actor's name with that of a bot. -/
def namesBot : Pattern :=
  let bot := unquoted ++ text "[bot]"
  anyOf (equals (text "github.actor") bot)
    [equals (text "github.triggering_actor") bot,
      equals (text "github.event.pull_request.sender.login") bot,
      equals (text "github.actor") (unquoted ++ text "bot" ++ unquoted)]

/-- A question whether some property contains `bot`. -/
def containsBot : Pattern :=
  text "contains" ++ blanks ++ text "(" ++ blanks ++ text "github." ++ many1 (noneOf ",") ++
    text "," ++ blanks ++ quote ++ text "bot" ++ quote ++ blanks ++ text ")"

/-- A comparison of an actor's number with digits in quotes. -/
def quotedNumber : Pattern :=
  equals (text "github." ++ (text "actor_id" ||| text "event.pull_request.sender.id"))
    (many1 (.one Text.isDecimalDigit))

/-- Whether a condition holds the number of a well-known bot in quotes. -/
def holdsKnownBot (condition : String) : Bool :=
  knownBots.any fun id =>
    holds condition ("'" ++ id ++ "'") || holds condition ("\"" ++ id ++ "\"")

/-- The problem with a condition. -/
def problem? (condition : String) : Option String :=
  if namesBot.isIn condition then
    some ("Bot actor name check is spoofable. Consider using actor_id instead for more secure " ++
      "bot validation.")
  else if containsBot.isIn condition then
    some ("Bot actor check using contains() is unreliable and spoofable. Use exact actor_id " ++
      "comparison instead.")
  else if quotedNumber.isIn condition && holdsKnownBot condition then
    some ("Using string comparison for actor_id. Consider using numeric comparison for better " ++
      "reliability.")
  else none

/-- The conditions that trust an actor by name. -/
def findings (doc : Value) : List Finding := Finding.underTextKey doc "if" problem?

end BotCondition

end WorkflowRecipes
