import WorkflowRecipes.Diff.Patch
import WorkflowRecipes.Plan.Basic

/-!
# Listings of plans

A listing names the files that are modified, skipped, or have findings, each with its edits and
findings and, if asked for, a patch.
-/

namespace WorkflowRecipes

/-- The sign of an action in a listing. -/
def PlanAction.sign : PlanAction → String
  | .modify => "~"
  | .keep => " "
  | .skip => "!"

namespace FilePlan

/-- Whether a listing names a file. -/
def isListed (file : FilePlan) : Bool := file.action ≠ .keep || !file.findings.isEmpty

/-- The line of an edit. -/
def editLine (edit : Signed Edit) : String :=
  "      " ++ edit.recipe ++ " " ++ edit.note.location.text ++ ": " ++ edit.note.detail ++ "\n"

/-- What a listing says about a finding. -/
def findingText (finding : Signed Finding) : String :=
  finding.recipe ++ " " ++ finding.note.location.text ++ ": " ++ finding.note.message ++ "\n"

/-- The patch of a file that is modified. -/
def patch (file : FilePlan) : String :=
  match file.after with
  | some text => Diff.patch file.before text
  | none => ""

/-- The part of a listing about a file. -/
def listing (withPatch : Bool) (file : FilePlan) : String :=
  "  " ++ file.action.sign ++ " " ++ file.path ++ " [" ++ file.action.text ++ "]\n" ++
    String.join (file.edits.map editLine) ++
    String.join (file.findings.map fun finding => "      FOUND " ++ findingText finding) ++
    (if withPatch then file.patch else "")

end FilePlan

/-- The listing of a plan. -/
def Plan.listing (withPatches : Bool) (plan : Plan) : String :=
  "Planning: " ++ plan.name ++ " (" ++ toString plan.files.length ++ " files)\n\n" ++
    String.join ((plan.files.filter (·.isListed)).map (·.listing withPatches)) ++
    "\nPlan: " ++ toString plan.modified ++ " to rewrite, " ++ toString plan.kept ++
    " unchanged, " ++ toString plan.skipped ++ " skipped, " ++
    toString plan.findings.length ++ " finding(s).\n"

end WorkflowRecipes
