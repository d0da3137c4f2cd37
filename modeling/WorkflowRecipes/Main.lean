import Std.Time.DateTime
import WorkflowRecipes.CommandLine.Perform
import WorkflowRecipes.Run.Moment

/-!
# The program

The files that a command may look at are loaded into a file tree, the command is carried out there,
and what it changed is written back.
-/

namespace WorkflowRecipes.Program

/-- Where a route lies. -/
def place (route : Route) := (IO.FS.DirEntry.mk "/" ("/".intercalate route)).path

/-- Load what stands along names from a route, links followed. -/
partial def loadAlong (tree : FileTree) (route : Route) : List String → IO FileTree
  | [] => return tree
  | name :: rest => do
    if name = "." then loadAlong tree route rest
    else if name = ".." then loadAlong tree route.dropLast rest
    else
      let next := route ++ [name]
      match ← (place next).symlinkMetadata.toBaseIO with
      | .error _ => return tree
      | .ok data =>
        match data.type with
        | .dir => loadAlong (tree.put next (.directory FileTree.directoryMode)) next rest
        | .symlink =>
          match ← (IO.FS.realPath (place next)).toBaseIO with
          | .error _ => return tree
          | .ok target =>
            let names := Path.names target.toString ++ rest
            loadAlong (tree.put next (.link target.toString)) [] names
        | _ =>
          match ← (IO.FS.readBinFile (place next)).toBaseIO with
          | .error _ => return tree
          | .ok content => return tree.put next (.file content FileTree.fileMode)

/-- Load what stands below a route. -/
partial def loadBelow (tree : FileTree) (route : Route) : IO FileTree := do
  match ← (place route).readDir.toBaseIO with
  | .error _ => return tree
  | .ok entries =>
    entries.foldlM (fun tree entry => do
      let tree ← loadAlong tree route [entry.fileName]
      match tree.get? (route ++ [entry.fileName]) with
      | some (.directory _) => loadBelow tree (route ++ [entry.fileName])
      | _ => return tree) tree

/-- Load what a path leads to. -/
def load (home : Route) (tree : FileTree) (path : String) : IO FileTree := do
  let tree ← loadAlong tree (if Path.isRooted path then [] else home) (Path.names path)
  match tree.resolve home true path with
  | .ok route => if tree.isDirectory home path then loadBelow tree route else return tree
  | .error _ => return tree

/-- The path of the log to which a command appends. -/
def logOf? (disk : Disk) : Command → Option String
  | .apply file root .. =>
    match ((Config.readFile file).run.run disk).1 with
    | .ok config => config.policy.eventLog.map (Path.join root)
    | .error _ => none
  | _ => none

/-- Write back what differs. -/
def store (before after : FileTree) : IO Unit :=
  after.entries.toList.forM fun (route, entry) =>
    match before.get? route, entry with
    | some (.directory _), .directory _ => return
    | _, .directory _ => IO.FS.createDirAll (place route)
    | some (.file old _), .file content _ =>
      if old.data = content.data then return else IO.FS.writeBinFile (place route) content
    | some (.link _), .file content _ => do
      IO.FS.removeFile (place route)
      IO.FS.writeBinFile (place route) content
    | _, .file content _ => IO.FS.writeBinFile (place route) content
    | _, .link _ => return

/-- Hexadecimal digits at random. -/
def randomDigits (count : Nat) : IO String := do
  let octets ← IO.getRandomBytes (.ofNat count)
  return String.ofList (octets.toList.map fun octet => Nat.digitChar (octet.toNat % 16))

/-- A number of 64 bits at random. -/
def randomNumber : IO Nat := do
  let octets ← IO.getRandomBytes 8
  return octets.toList.foldl (fun n octet => 256 * n + octet.toNat) 0

/-- Seconds with one place, from milliseconds. -/
def seconds (milliseconds : Nat) : String :=
  let tenths := (milliseconds + 50) / 100
  toString (tenths / 10) ++ "." ++ toString (tenths % 10)

/-- Carry out a command on the file system. -/
def perform (command : Command) : IO UInt32 := do
  let start ← IO.monoMsNow
  let directory := (← IO.FS.realPath (← IO.currentDir)).toString
  let home := Path.names directory
  let tree ← loadAlong {} [] home
  let tree ← command.paths.foldlM (load home) tree
  let tree ← (logOf? { tree, home } command).toList.foldlM (load home) tree
  let now ← Std.Time.Timestamp.now
  let setting : Setting :=
    { directory
      temporaryName := ".tmp" ++ (← randomDigits 6)
      runName := "r-" ++ (← randomDigits 32)
      time := Moment.text now.toSecondsSinceUnixEpoch.val.toNat }
  let draws : Draws := { value := ← randomNumber, step := ← randomNumber }
  let (result, disk) := (command.perform setting draws).run.run { tree, home }
  store tree disk.tree
  match result with
  | .ok output =>
    IO.print (output.shown (seconds ((← IO.monoMsNow) - start)))
    return 0
  | .error failure =>
    failure.complaints.forM fun complaint => IO.eprintln complaint
    IO.eprintln ("error: " ++ failure.error.message)
    return 1

end WorkflowRecipes.Program

open WorkflowRecipes in
def main (arguments : List String) : IO UInt32 := do
  match Invocation.ofArguments arguments with
  | .ok invocation => Program.perform invocation.command
  | .error .help =>
    IO.println UsageError.help.message
    return 0
  | .error .version =>
    IO.println UsageError.version.message
    return 0
  | .error e =>
    IO.eprintln ("error: " ++ e.message)
    return 2
