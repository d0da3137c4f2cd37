import WorkflowRecipes.Audit.Finding

/-!
# Events that start a workflow

The names listed under `on`, and those among them that give strangers the rights of the repository.
-/

namespace WorkflowRecipes

namespace Event

/-- The events that run with rights on behalf of strangers. -/
def privileged : List String := ["pull_request_target", "workflow_run"]

/-- The names of the events of a workflow, in order. -/
def names (doc : Value) : List String :=
  match doc.get? "on" with
  | some (.string event) => [event]
  | some (.sequence items) => items.filterMap Value.text?
  | some (.mapping entries) => entries.filterMap fun e => e.1.text?
  | _ => []

/-- The first privileged event of a workflow. -/
def privileged? (doc : Value) : Option String := (names doc).find? privileged.contains

/-- Whether a workflow has a privileged event. -/
def isPrivileged (doc : Value) : Bool := (privileged? doc).isSome

/-- What is to be said about a privileged event. -/
def warning (event : String) : String :=
  if event = "pull_request_target" then
    "The 'pull_request_target' trigger is almost always used insecurely. It runs with write " ++
    "permissions in the context of the target repository, potentially allowing code injection " ++
    "from pull requests. Consider using 'pull_request' instead, or implement proper isolation."
  else
    "The 'workflow_run' trigger is almost always used insecurely. It can trigger workflows with " ++
    "sensitive permissions based on external events. Consider using more specific triggers with " ++
    "explicit safety checks."

/-- The privileged event of a workflow. -/
def findings (doc : Value) : List Finding :=
  (privileged? doc).toList.map fun event => ⟨Location.root.key "on", warning event⟩

end Event

end WorkflowRecipes
