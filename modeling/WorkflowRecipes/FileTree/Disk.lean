import WorkflowRecipes.FileTree.Change
import WorkflowRecipes.Text.Quoted

/-!
# Work on a disk

A disk is a file tree that is read and changed step by step. Any step may go wrong for a reason that
does not lie in the tree; the disk knows in advance which ones do, so that a statement about all
disks covers every way in which a piece of work can be cut short. A step that goes wrong leaves the
tree as it was.

`Disk.replaceFile` writes a file so that a reader sees the earlier content or the new one: the new
content goes to a temporary file in the same directory, which is then moved over the file.
-/

namespace WorkflowRecipes

/-- A file tree in use. -/
structure Disk where
  tree : FileTree
  /-- The directory from which paths start. -/
  home : Route := []
  /-- What goes wrong in the steps to come; nothing does once the list has ended. -/
  troubles : List (Option FileFault) := []

/-- A piece of work on a disk. What was done before it failed stays done. -/
abbrev Work (ε α : Type) := ExceptT ε (StateM Disk) α

/-- Where and when the work takes place. -/
structure Setting where
  /-- The path of the directory from which paths start. -/
  directory : String
  /-- The name for a temporary file. -/
  temporaryName : String
  /-- The name of the run. -/
  runName : String
  /-- The time of events. -/
  time : String
  deriving Repr

namespace Disk

/-- One step: it goes wrong if that is foreseen, else it depends on the tree alone. -/
def step {α : Type} (act : FileTree → Route → Except FileFault (α × FileTree)) :
    Work FileFault α := do
  let disk ← get
  set { disk with troubles := disk.troubles.tail }
  match disk.troubles.head?.join with
  | some fault => throw fault
  | none =>
    match act disk.tree disk.home with
    | .error fault => throw fault
    | .ok (result, tree) =>
      modify fun disk => { disk with tree := tree }
      return result

/-- A step that changes the tree. -/
def change (act : FileTree → Route → Except FileFault FileTree) : Work FileFault Unit :=
  step fun tree home => (act tree home).map ((), ·)

/-- A step that looks at the tree. -/
def look {α : Type} (act : FileTree → Route → Except FileFault α) : Work FileFault α :=
  step fun tree home => (act tree home).map (·, tree)

/-- A question about the tree that cannot go wrong. -/
def ask {ε α : Type} (question : FileTree → Route → α) : Work ε α := do
  let disk ← get
  return question disk.tree disk.home

/-- Name the cause of a fault. -/
def blame {ε ε' α : Type} (cause : ε → ε') (work : Work ε α) : Work ε' α :=
  ExceptT.adapt cause work

/-- The text of a file. -/
def readText (path : String) : Work FileFault String :=
  look fun tree home => tree.readText home path

/-- The text of a file, or nothing if it is no text. -/
def readText? (path : String) : Work FileFault (Option String) :=
  tryCatch (some <$> readText path) fun
    | .notText => pure none
    | fault => throw fault

/-- The octets of a file. -/
def read (path : String) : Work FileFault ByteArray := look fun tree home => tree.read home path

end Disk

/-- Why a file is not written. -/
inductive WriteFault where
  | file (fault : FileFault)
  /-- The temporary file cannot be made. -/
  | temporary (path : String) (fault : FileFault)
  /-- The file is there already. -/
  | present
  /-- The file does not hold what was written. -/
  | changed
  deriving Repr, DecidableEq

/-- The wording of a fault. -/
def WriteFault.message : WriteFault → String
  | .file fault => fault.message
  | .temporary path fault => fault.message ++ " at path " ++ quoted path
  | .present => "already exists"
  | .changed => "content changed during write"

namespace Disk

/-- Fill the temporary file at a route, give it the permission bits of the file to be replaced, and
move it there. -/
def fillAndMove (path : String) (content : ByteArray) (temporary : Route) :
    Work FileFault Unit := do
  change fun tree _ => .ok (tree.overContent temporary fun _ => content)
  match ← ask fun tree home => tree.mode? home path with
  | some mode => change fun tree _ => .ok (tree.setModeAt temporary mode)
  | none => pure ()
  change fun tree home => tree.moveFile home temporary path

/-- Drop the temporary file at a route. -/
def dropTemporary (temporary : Route) : Work FileFault Unit :=
  modify fun disk => { disk with tree := disk.tree.erase temporary }

/-- Write a file in one go, keeping its permission bits. A temporary file that is not moved is
removed. -/
def replaceFile (setting : Setting) (path text : String) : Work WriteFault Unit := do
  let directory := (Path.parent? path).getD "."
  let name := Path.join directory setting.temporaryName
  let temporary ← blame (.temporary (Path.join setting.directory name)) <|
    step fun tree home => tree.makeFile home name
  blame .file <|
    tryCatch (fillAndMove path text.toUTF8 temporary) fun fault => do
      dropTemporary temporary
      throw fault

end Disk

end WorkflowRecipes
