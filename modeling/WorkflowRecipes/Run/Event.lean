import WorkflowRecipes.Run.Error
import WorkflowRecipes.Text.JsonString

/-!
# The log of events

What happens in a run is appended to a log, one JSON object on each line.
-/

namespace WorkflowRecipes

/-- Something that happens in a run. -/
inductive RunEvent where
  | started (run config : String) (recipes : List String) (version : String)
  | modified (run path : String) (recipes : List String) (edits : Nat) (before after : String)
  | found (run path recipe location message : String)
  | completed (run : String) (changed unchanged findings : Nat)
  deriving Repr, DecidableEq

namespace RunEvent

/-- The value of a field. -/
inductive FieldValue where
  | text (value : String)
  | texts (value : List String)
  | number (value : Nat)
  deriving Repr, DecidableEq

/-- The JSON of a value. -/
def FieldValue.json : FieldValue → String
  | .text value => jsonQuoted value
  | .texts value => "[" ++ ",".intercalate (value.map jsonQuoted) ++ "]"
  | .number value => toString value

/-- The word for a kind of event. -/
def tag : RunEvent → String
  | .started .. => "run_started"
  | .modified .. => "file_rewritten"
  | .found .. => "finding_reported"
  | .completed .. => "run_completed"

/-- The fields of an event, in order. -/
def fields : RunEvent → List (String × FieldValue)
  | .started run config recipes version =>
    [("run_id", .text run), ("config", .text config), ("recipes", .texts recipes),
      ("ghrewrite_version", .text version)]
  | .modified run path recipes edits before after =>
    [("run_id", .text run), ("path", .text path), ("recipes", .texts recipes),
      ("edits", .number edits), ("before_hash", .text before), ("after_hash", .text after)]
  | .found run path recipe location message =>
    [("run_id", .text run), ("path", .text path), ("recipe", .text recipe),
      ("location", .text location), ("message", .text message)]
  | .completed run changed unchanged findings =>
    [("run_id", .text run), ("files_rewritten", .number changed),
      ("files_unchanged", .number unchanged), ("findings", .number findings)]

/-- The JSON object of an event at a time. -/
def json (time : String) (event : RunEvent) : String :=
  let all := ("ts", .text time) :: ("event", .text event.tag) :: event.fields
  "\x7b" ++ ",".intercalate (all.map fun (name, value) => jsonQuoted name ++ ":" ++ value.json) ++
    "\x7d"

/-- The line of an event in a log. -/
def line (time : String) (event : RunEvent) : String := event.json time ++ "\n"

/-- Make the directories on the way to a log that are missing. -/
def makeParent (path : String) : Work LogFault Unit :=
  match Path.parent? path with
  | some parent =>
    Disk.blame .directory <| Disk.change fun tree home => tree.makeAllDirectories home parent
  | none => pure ()

/-- Append an event to the log at a path; missing directories are made. -/
def append (setting : Setting) (path : String) (event : RunEvent) : Work RunError Unit :=
  Disk.blame (.log path) do
    makeParent path
    let route ← Disk.blame .opening <| Disk.step fun tree home => tree.openFile home path
    Disk.blame .writing <| Disk.change fun tree _ =>
      .ok (tree.overContent route (· ++ (event.line setting.time).toUTF8))

end RunEvent

end WorkflowRecipes
