/-!
# Locations

A `Location` is the way from the root of a document to a value: keys of mappings and positions in
sequences. It is written like `$.jobs.build.steps[0].uses`.
-/

namespace WorkflowRecipes

/-- One step of a way into a document. -/
inductive Hop where
  | key (name : String)
  | index (position : Nat)
  deriving Repr, DecidableEq

/-- The way from the root of a document to a value. -/
structure Location where
  hops : List Hop := []
  deriving Repr, DecidableEq, Inhabited

namespace Location

/-- The root of a document. -/
def root : Location := ⟨[]⟩

/-- The value under a key of a mapping. -/
def key (location : Location) (name : String) : Location := ⟨location.hops ++ [.key name]⟩

/-- The value at a position of a sequence. -/
def index (location : Location) (position : Nat) : Location :=
  ⟨location.hops ++ [.index position]⟩

/-- The value under a chain of keys. -/
def keys (location : Location) (names : List String) : Location := names.foldl key location

/-- The text of one step. -/
def hopText : Hop → String
  | .key name => "." ++ name
  | .index position => "[" ++ toString position ++ "]"

/-- The text of a location. -/
def text (location : Location) : String :=
  location.hops.foldl (fun text hop => text ++ hopText hop) "$"

example : ((root.keys ["jobs", "build", "steps"]).index 1).text = "$.jobs.build.steps[1]" := by
  decide

end Location

end WorkflowRecipes
