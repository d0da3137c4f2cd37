import WorkflowRecipes.Document.Walk

/-!
# Findings

An audit looks at a document and reports what it finds there, without changing it.
-/

namespace WorkflowRecipes

/-- Something that an audit reports. -/
structure Finding where
  location : Location
  message : String
  deriving Repr, DecidableEq

namespace Finding

/-- A finding for each entry under a key with this text whose value has a problem. -/
def underKey (doc : Value) (key : String) (problem? : Value → Option String) : List Finding :=
  doc.entriesWithin.filterMap fun (location, name, value) =>
    if name = key then (problem? value).map fun message => ⟨location, message⟩ else none

/-- A finding for each entry under a key with this text whose value is a text with a problem. -/
def underTextKey (doc : Value) (key : String) (problem? : String → Option String) :
    List Finding :=
  underKey doc key fun value => value.text?.bind problem?

/-- A finding if a condition holds. -/
def when (condition : Bool) (location : Location) (message : String) : List Finding :=
  if condition then [⟨location, message⟩] else []

end Finding

end WorkflowRecipes
