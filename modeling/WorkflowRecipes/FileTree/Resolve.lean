import WorkflowRecipes.FileTree.Basic
import WorkflowRecipes.Path.Basic

/-!
# From paths to routes

`FileTree.resolve` follows a path name by name from a directory, through symbolic links on the way,
to the route of an entry. The last name need not exist, but all others must lead to directories.
-/

namespace WorkflowRecipes

namespace Path

/-- Whether a path starts at the top. -/
def isRooted (path : String) : Bool := startsWith path "/"

/-- Whether a path ends with a slash, so that it can only mean a directory. -/
def endsInSlash (path : String) : Bool := path.toList.getLast? == some '/'

/-- The names of a path to be followed. A slash at the end counts as the name `.`. -/
def names (path : String) : List String :=
  (((Text.pieces '/' path.toList).map String.ofList).filter (· != "")) ++
    (if endsInSlash path then ["."] else [])

end Path

namespace FileTree

/-- The octets that a name may have. -/
def longestName : Nat := 255

/-- Follow names from a route. A link is left to `onLink`, unless it is the last name and
`followLast` does not hold. -/
def follow (tree : FileTree) (followLast : Bool)
    (onLink : Route → List String → Except FileFault Route) :
    Route → List String → Except FileFault Route
  | here, [] => .ok here
  | here, name :: rest =>
    match tree.get? here with
    | none => .error .notFound
    | some (.directory _) =>
      if name = "." then follow tree followLast onLink here rest
      else if name = ".." then follow tree followLast onLink here.dropLast rest
      else if longestName < name.utf8ByteSize then .error .nameTooLong
      else
        let next := here ++ [name]
        match tree.get? next with
        | some (.link target) =>
          if rest.isEmpty && !followLast then .ok next
          else onLink (if Path.isRooted target then [] else here) (Path.names target ++ rest)
        | _ => follow tree followLast onLink next rest
    | some _ => .error .notDirectory

/-- Follow names from a route through at most a number of links. -/
def followLinks (tree : FileTree) (followLast : Bool) :
    Nat → Route → List String → Except FileFault Route
  | 0 => follow tree followLast fun _ _ => .error .linkLoop
  | links + 1 => follow tree followLast (followLinks tree followLast links)

/-- The links that are followed at most. -/
def mostLinks : Nat := 40

/-- The route that a path from a directory leads to. Unless `followLast` holds, it may be that of a
link. -/
def resolve (tree : FileTree) (home : Route) (followLast : Bool) (path : String) :
    Except FileFault Route :=
  if path = "" then .error .notFound
  else
    followLinks tree followLast mostLinks (if Path.isRooted path then [] else home)
      (Path.names path)

/-- The entry that a path leads to, through all links. -/
def entry (tree : FileTree) (home : Route) (path : String) : Except FileFault FileEntry :=
  (tree.resolve home true path).bind fun route =>
    match tree.get? route with
    | some entry => .ok entry
    | none => .error .notFound

/-- Whether a path leads to anything. -/
def holds (tree : FileTree) (home : Route) (path : String) : Bool :=
  (tree.entry home path).toBool

/-- Whether a path leads to a file. -/
def isFile (tree : FileTree) (home : Route) (path : String) : Bool :=
  match tree.entry home path with
  | .ok (.file ..) => true
  | _ => false

/-- Whether a path leads to a directory. -/
def isDirectory (tree : FileTree) (home : Route) (path : String) : Bool :=
  match tree.entry home path with
  | .ok (.directory _) => true
  | _ => false

/-- The permission bits of what a path leads to. -/
def mode? (tree : FileTree) (home : Route) (path : String) : Option Nat :=
  match tree.entry home path with
  | .ok (.file _ mode) | .ok (.directory mode) => some mode
  | _ => none

/-- The octets of the file that a path leads to. -/
def read (tree : FileTree) (home : Route) (path : String) : Except FileFault ByteArray :=
  match tree.entry home path with
  | .ok (.file content _) => .ok content
  | .ok _ => .error .isDirectory
  | .error fault => .error fault

/-- The text of the file that a path leads to. -/
def readText (tree : FileTree) (home : Route) (path : String) : Except FileFault String :=
  (tree.read home path).bind fun content =>
    match String.fromUTF8? content with
    | some text => .ok text
    | none => .error .notText

end FileTree

end WorkflowRecipes
