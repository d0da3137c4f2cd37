import WorkflowRecipes.FileTree.Resolve

/-!
# Changes of file trees

Each change either fails and leaves nothing behind, or gives the tree after it.
-/

namespace WorkflowRecipes

namespace FileTree

/-- Make a directory. -/
def makeDirectory (tree : FileTree) (home : Route) (path : String) : Except FileFault FileTree :=
  (tree.resolve home false path).bind fun route =>
    if (tree.get? route).isSome then .error .taken
    else .ok (tree.put route (.directory directoryMode))

/-- Make a directory if none is there, given that the directory before it is made already. -/
def ensureDirectory (tree : FileTree) (home : Route) (path : String) :
    Except FileFault FileTree :=
  match tree.makeDirectory home path with
  | .ok after => .ok after
  | .error fault => if tree.isDirectory home path then .ok tree else .error fault

/-- Make a directory and all that are missing on the way to it. The first argument bounds their
number. -/
def makeDirectories (tree : FileTree) (home : Route) : Nat → String → Except FileFault FileTree
  | 0, _ => .ok tree
  | bound + 1, path =>
    if path = "" then .ok tree
    else
      match tree.makeDirectory home path with
      | .error .notFound =>
        match Path.parent? path with
        | none => .error .notFound
        | some parent =>
          (makeDirectories tree home bound parent).bind fun tree =>
            tree.ensureDirectory home path
      | _ => tree.ensureDirectory home path

/-- Make a directory and all that are missing on the way to it. -/
def makeAllDirectories (tree : FileTree) (home : Route) (path : String) :
    Except FileFault FileTree :=
  tree.makeDirectories home (path.length + 1) path

/-- The route of a file to be written, which is made empty if it is missing. -/
def openFile (tree : FileTree) (home : Route) (path : String) :
    Except FileFault (Route × FileTree) :=
  if Path.endsInSlash path && !tree.isDirectory home path then .error .isDirectory
  else
    (tree.resolve home true path).bind fun route =>
      match tree.get? route with
      | some (.file ..) => .ok (route, tree)
      | some _ => .error .isDirectory
      | none => .ok (route, tree.put route (.file .empty fileMode))

/-- Change the content of the file at a route. -/
def overContent (tree : FileTree) (route : Route) (f : ByteArray → ByteArray) : FileTree :=
  match tree.get? route with
  | some (.file content mode) => tree.put route (.file (f content) mode)
  | _ => tree

/-- Change the permission bits at a route. -/
def setModeAt (tree : FileTree) (route : Route) (mode : Nat) : FileTree :=
  match tree.get? route with
  | some (.file content _) => tree.put route (.file content mode)
  | some (.directory _) => tree.put route (.directory mode)
  | _ => tree

/-- Write a file anew, in place. -/
def write (tree : FileTree) (home : Route) (path : String) (content : ByteArray) :
    Except FileFault FileTree :=
  (tree.openFile home path).map fun (route, tree) => tree.overContent route fun _ => content

/-- Make a new file that only its owner may use. -/
def makeFile (tree : FileTree) (home : Route) (path : String) :
    Except FileFault (Route × FileTree) :=
  (tree.resolve home false path).bind fun route =>
    if (tree.get? route).isSome then .error .taken
    else .ok (route, tree.put route (.file .empty privateMode))

/-- Make a symbolic link. -/
def makeLink (tree : FileTree) (home : Route) (path target : String) :
    Except FileFault FileTree :=
  (tree.resolve home false path).bind fun route =>
    if (tree.get? route).isSome then .error .taken else .ok (tree.put route (.link target))

/-- Change permission bits. -/
def setMode (tree : FileTree) (home : Route) (path : String) (mode : Nat) :
    Except FileFault FileTree :=
  (tree.resolve home true path).bind fun route =>
    if (tree.get? route).isSome then .ok (tree.setModeAt route mode) else .error .notFound

/-- Move the file at a route to where a path leads, over a file or link that is there. -/
def moveFile (tree : FileTree) (home : Route) (source : Route) (path : String) :
    Except FileFault FileTree :=
  match tree.get? source, tree.resolve home false path with
  | none, _ => .error .notFound
  | _, .error fault => .error fault
  | some entry, .ok target =>
    if (Path.names path).getLast?.any fun name => name = "." || name = ".." then
      .error (if Path.endsInSlash path then .notDirectory else .busy)
    else
      match tree.get? target with
      | some (.directory _) => .error .isDirectory
      | _ => .ok ((tree.erase source).put target entry)

/-- Remove what a path names, with all that is below it. -/
def remove (tree : FileTree) (home : Route) (path : String) : Except FileFault FileTree :=
  (tree.resolve home false path).bind fun route =>
    if (tree.get? route).isSome then .ok (tree.eraseAll route) else .error .notFound

end FileTree

end WorkflowRecipes
