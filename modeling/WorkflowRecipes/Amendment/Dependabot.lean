import WorkflowRecipes.Document.Walk
import WorkflowRecipes.Pattern.Reader
import WorkflowRecipes.Amendment.Edit

/-!
# Configuration of updates

How often the updates of an ecosystem are looked for, and how long a release has to wait.
-/

namespace WorkflowRecipes

namespace Updates

/-- The location of the updates. -/
def location : Location := Location.root.key "updates"

/-- Change the updates that are mappings. -/
def overEach (f : Location → Entries → Editing Entries) (doc : Value) : Editing Value :=
  doc.overKey "updates" <| Value.overItems <| Value.overIndexed (fun i update =>
    update.overEntries (f (location.index i))) 0

end Updates

/-- The options for changing how often updates are looked for. -/
structure ChangeInterval where
  ecosystem : String
  interval : String
  deriving Repr, DecidableEq

namespace ChangeInterval

/-- The intervals there are. -/
def intervals : List String := ["daily", "weekly", "monthly"]

/-- The pattern that the whole name of an ecosystem must fit. -/
def pattern? (options : ChangeInterval) : Option Pattern :=
  Pattern.ofText? ("^(?:" ++ options.ecosystem ++ ")$")

/-- The problems with the options. -/
def problems (options : ChangeInterval) : List String :=
  (if options.pattern?.isNone then ["package-ecosystem is not a valid pattern"] else []) ++
    (if intervals.contains options.interval then []
      else ["interval '" ++ options.interval ++ "' must be one of " ++ ", ".intercalate intervals])

/-- Whether the ecosystem of an update fits. -/
def fits (pattern : Pattern) (update : Entries) : Bool :=
  ((update.get? "package-ecosystem").bind Value.scalarText?).any pattern.isIn

/-- Set an interval, unless it is the wanted one. -/
def set (options : ChangeInterval) (location : Location) (slot : Value) : Editing Value :=
  let old := slot.scalarText?.getD ""
  if old = options.interval then pure slot
  else
    .one (location.keys ["schedule", "interval"]) (arrow old options.interval)
      (.string options.interval)

/-- Set the interval of the updates that fit. -/
def visit (options : ChangeInterval) (doc : Value) : Editing Value :=
  match options.pattern? with
  | none => pure doc
  | some pattern =>
    doc |> Updates.overEach fun location update =>
      if fits pattern update then
        update.overKey "schedule" (Value.overKey "interval" (options.set location))
      else pure update

end ChangeInterval

/-- The options for letting releases wait. -/
structure AddCooldown where
  days : Nat := 7
  majorDays : Option Nat := none
  minorDays : Option Nat := none
  patchDays : Option Nat := none
  included : Option (List String) := none
  excluded : Option (List String) := none
  deriving Repr, DecidableEq

namespace AddCooldown

/-- The most days that a release can wait. -/
def mostDays : Nat := 90

/-- The most names in a list. -/
def mostNames : Nat := 150

/-- The problem with a number of days. -/
def daysProblem (field : String) (days : Option Nat) : List String :=
  if days.all fun d => 1 ≤ d && d ≤ mostDays then []
  else [field ++ " must be between 1 and " ++ toString mostDays]

/-- The problem with a list of names. -/
def namesProblem (field : String) (names : Option (List String)) : List String :=
  if names.any fun n => mostNames < n.length then
    [field ++ " list limited to " ++ toString mostNames ++ " items"]
  else []

/-- The problems with the options. -/
def problems (options : AddCooldown) : List String :=
  daysProblem "cooldown-days" (some options.days) ++
    daysProblem "semver-major-days" options.majorDays ++
    daysProblem "semver-minor-days" options.minorDays ++
    daysProblem "semver-patch-days" options.patchDays ++
    namesProblem "include" options.included ++ namesProblem "exclude" options.excluded

/-- An entry for a number of days, if it is given. -/
def daysEntry (key : String) (days : Option Nat) : Entries :=
  match days with
  | some d => [(.string key, .number (.integer d))]
  | none => []

/-- An entry for a list of names, if it has any. -/
def namesEntry (key : String) (names : Option (List String)) : Entries :=
  match names.getD [] with
  | [] => []
  | names => [(.string key, .sequence (names.map .string))]

/-- The settings that are added. -/
def settings (options : AddCooldown) : Value :=
  .mapping (daysEntry "default-days" (some options.days) ++
    daysEntry "semver-major-days" options.majorDays ++
    daysEntry "semver-minor-days" options.minorDays ++
    daysEntry "semver-patch-days" options.patchDays ++
    namesEntry "include" options.included ++ namesEntry "exclude" options.excluded)

/-- Add the settings to an update, unless it has some. -/
def addTo (options : AddCooldown) (location : Location) (update : Entries) : Editing Entries :=
  if update.hasKey "package-ecosystem" && !update.hasKey "cooldown" then
    .one (location.key "cooldown") ("cooldown of " ++ toString options.days ++ " days")
      (update.set "cooldown" options.settings)
  else pure update

/-- Add the settings to all updates. -/
def visit (options : AddCooldown) (doc : Value) : Editing Value := Updates.overEach options.addTo doc

end AddCooldown

end WorkflowRecipes
