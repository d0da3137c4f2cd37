import Std.Data.ExtTreeMap

/-!
# File trees

A file tree maps routes, the names from the top down, to files, directories and symbolic links. Two
trees are equal when they hold the same entries. The top is always a directory.
-/

namespace WorkflowRecipes

/-- The names that lead from the top of a file tree to an entry. -/
abbrev Route := List String

/-- What stands at a route. Modes are the permission bits. -/
inductive FileEntry where
  | file (content : ByteArray) (mode : Nat)
  | directory (mode : Nat)
  | link (target : String)

/-- A tree of files. -/
structure FileTree where
  entries : Std.ExtTreeMap Route FileEntry compare := ∅

/-- Why something cannot be done with a file. -/
inductive FileFault where
  | notFound
  | busy
  | taken
  | notDirectory
  | isDirectory
  | nameTooLong
  | linkLoop
  /-- The octets are no text. -/
  | notText
  deriving Repr, DecidableEq

/-- The wording of a fault. -/
def FileFault.message : FileFault → String
  | .notFound => "No such file or directory (os error 2)"
  | .busy => "Device or resource busy (os error 16)"
  | .taken => "File exists (os error 17)"
  | .notDirectory => "Not a directory (os error 20)"
  | .isDirectory => "Is a directory (os error 21)"
  | .nameTooLong => "File name too long (os error 36)"
  | .linkLoop => "Too many levels of symbolic links (os error 40)"
  | .notText => "stream did not contain valid UTF-8"

namespace FileTree

/-- The permission bits of a new directory. -/
def directoryMode : Nat := 0o755

/-- The permission bits of a new file. -/
def fileMode : Nat := 0o644

/-- The permission bits of a new file that only its owner may use. -/
def privateMode : Nat := 0o600

/-- The entry at a route. -/
def get? (tree : FileTree) (route : Route) : Option FileEntry :=
  if route = [] then some (.directory directoryMode) else tree.entries[route]?

/-- The tree with an entry at a route. -/
def put (tree : FileTree) (route : Route) (entry : FileEntry) : FileTree :=
  ⟨tree.entries.insert route entry⟩

/-- The tree without the entry at a route. -/
def erase (tree : FileTree) (route : Route) : FileTree := ⟨tree.entries.erase route⟩

/-- The tree without the entry at a route and all entries below it. -/
def eraseAll (tree : FileTree) (route : Route) : FileTree :=
  ⟨tree.entries.filter fun other _ => !route.isPrefixOf other⟩

/-- The entries below a route in order: a directory comes before what it holds, and its entries in
the order of their names. The routes start below the given one. -/
def below (tree : FileTree) (route : Route) : List (Route × FileEntry) :=
  tree.entries.toList.filterMap fun (other, entry) =>
    if route.isPrefixOf other && other != route then some (other.drop route.length, entry)
    else none

@[ext] theorem ext {s t : FileTree} (h : ∀ route : Route, s.entries[route]? = t.entries[route]?) :
    s = t := by
  cases s
  cases t
  simp only [mk.injEq]
  exact Std.ExtTreeMap.ext_getElem? h

theorem getElem?_put (tree : FileTree) (route other : Route) (entry : FileEntry) :
    (tree.put route entry).entries[other]? =
      if route = other then some entry else tree.entries[other]? := by
  simp [put, Std.ExtTreeMap.getElem?_insert]

theorem getElem?_erase (tree : FileTree) (route other : Route) :
    (tree.erase route).entries[other]? =
      if route = other then none else tree.entries[other]? := by
  simp [erase, Std.ExtTreeMap.getElem?_erase]

end FileTree

end WorkflowRecipes
