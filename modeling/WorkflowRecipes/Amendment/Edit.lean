import WorkflowRecipes.Document.Location

/-!
# Edits

An edit tells what was changed and where. `Editing` carries a changed part of a document with the
edits that led to it, in the order in which they were made.
-/

namespace WorkflowRecipes

/-- A change made to a document. -/
structure Edit where
  location : Location
  detail : String
  deriving Repr, DecidableEq

/-- A result and the edits that led to it. -/
structure Editing (α : Type) where
  result : α
  edits : List Edit
  deriving Repr

namespace Editing

instance : Monad Editing where
  pure a := ⟨a, []⟩
  bind x f := ⟨(f x.result).result, x.edits ++ (f x.result).edits⟩

/-- Note an edit. -/
def note (location : Location) (detail : String) : Editing Unit := ⟨(), [⟨location, detail⟩]⟩

@[simp] theorem result_pure {α : Type} (a : α) : (pure a : Editing α).result = a := rfl

@[simp] theorem edits_pure {α : Type} (a : α) : (pure a : Editing α).edits = [] := rfl

@[simp] theorem result_bind {α β : Type} (x : Editing α) (f : α → Editing β) :
    (x >>= f).result = (f x.result).result := rfl

@[simp] theorem edits_bind {α β : Type} (x : Editing α) (f : α → Editing β) :
    (x >>= f).edits = x.edits ++ (f x.result).edits := rfl

/-- One edit, and the result behind it. -/
def one {α : Type} (location : Location) (detail : String) (result : α) : Editing α :=
  ⟨result, [⟨location, detail⟩]⟩

end Editing

/-- What changes a text into another, in words. -/
def arrow (old new : String) : String := old ++ " -> " ++ new

end WorkflowRecipes
