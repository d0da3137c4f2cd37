import WorkflowRecipes.Plan.Basic
import WorkflowRecipes.Proofs.Amendment.SettledSteps
import WorkflowRecipes.Proofs.Document.Keeping
import WorkflowRecipes.Proofs.Text.Occurrences

/-!
# Scripts that call the wrapper

A script is a string under a key `run`, at any depth of the mappings and sequences of a job. In a
job whose runner is known each script is changed by itself, line by line: where a line starts with
the name of the tool and a space, the wrapper is called instead, and every other line is kept.

Results:
1. `call?_eq_some_iff`: how runners call the wrapper.
2. `scriptOver_change`: what becomes of one script.
3. `scriptsOfEntries_changeInEntries`, `aroundScripts_changeInEntries`: the scripts of a job after
   the change, and what stands around them.
4. `visit_wraps`: what becomes of a document.
-/

namespace WorkflowRecipes.GradleWrapper

/-! ## What is meant -/

/-- A runner calls the wrapper by a word. -/
inductive CallsBy (runner word : String) : Prop
  | path : "ubuntu-".toList <+: runner.toList ∨ "macos-".toList <+: runner.toList →
      word = "./gradlew" → CallsBy runner word
  | name : "windows-".toList <+: runner.toList → word = "gradlew" → CallsBy runner word

/-- The lines of a script, as the line feeds divide it. -/
def linesOf (script : String) : List (List Char) := Text.pieces '\n' script.toList

/-- A line calls the tool. -/
def LineCalls (line : List Char) : Prop := "gradle ".toList <+: line

/-- A script calls the tool on one of its lines. -/
def Calls (script : String) : Prop := ∃ line ∈ linesOf script, LineCalls line

/-- A line calls the wrapper by a word where it called the tool, or it is kept. -/
inductive LineOver (word : String) : List Char → List Char → Prop
  | wrapped (rest : List Char) : LineOver word ("gradle ".toList ++ rest) (word.toList ++ ' ' :: rest)
  | kept {line : List Char} : ¬ LineCalls line → LineOver word line line

/-- A script that calls the tool calls the wrapper on the same lines, with one edit. Any other
script is kept. -/
inductive ScriptOver (word : String) (location : Location) (script : String) :
    Editing String → Prop
  | wrapped {new : String} : Calls script → ¬ Calls new →
      List.Forall₂ (LineOver word) (linesOf script) (linesOf new) →
      ScriptOver word location script ⟨new, [⟨location, "gradle -> " ++ word⟩]⟩
  | kept : ¬ Calls script → ScriptOver word location script (pure script)

/-- The script that an entry holds. -/
def script? (key value : Value) : Option String :=
  match value with
  | .string script => if key.keyText = "run" then some script else none
  | _ => none

mutual

/-- The scripts below a location, each with its own. -/
def scriptsAt (location : Location) : Value → List (Location × String)
  | .mapping entries => scriptsOfEntries location entries
  | .sequence items => scriptsOfItems location 0 items
  | _ => []

/-- The scripts in the entries of a mapping. -/
def scriptsOfEntries (location : Location) : List (Value × Value) → List (Location × String)
  | [] => []
  | (key, value) :: rest =>
    let here := location.key key.keyText
    let found := match script? key value with
      | some script => [(here, script)]
      | none => scriptsAt here value
    found ++ scriptsOfEntries location rest

/-- The scripts below the items of a sequence, from position `i` on. -/
def scriptsOfItems (location : Location) (i : Nat) : List Value → List (Location × String)
  | [] => []
  | item :: rest => scriptsAt (location.index i) item ++ scriptsOfItems location (i + 1) rest

end

mutual

/-- A value with its scripts emptied. -/
def aroundScripts : Value → Value
  | .mapping entries => .mapping (aroundScriptsOfEntries entries)
  | .sequence items => .sequence (aroundScriptsOfItems items)
  | value => value

/-- The entries of a mapping with their scripts emptied. -/
def aroundScriptsOfEntries : List (Value × Value) → List (Value × Value)
  | [] => []
  | (key, value) :: rest =>
    let around := match script? key value with
      | some _ => .string ""
      | none => aroundScripts value
    (key, around) :: aroundScriptsOfEntries rest

/-- The items of a sequence with their scripts emptied. -/
def aroundScriptsOfItems : List Value → List Value
  | [] => []
  | item :: rest => aroundScripts item :: aroundScriptsOfItems rest

end

/-- The change of a job changes each script by itself and keeps what stands around the scripts. -/
structure ScriptsOver (word : String) (location : Location) (job : Entries)
    (change : Editing Entries) : Prop where
  around : aroundScriptsOfEntries change.result = aroundScriptsOfEntries job
  each : ∃ parts : List (Editing String),
    List.Forall₂ (fun script part => ScriptOver word script.1 script.2 part)
      (scriptsOfEntries location job) parts ∧
    scriptsOfEntries location change.result =
      List.zipWith (fun script part => (script.1, part.result)) (scriptsOfEntries location job)
        parts ∧
    change.edits = parts.flatMap Editing.edits

/-- What becomes of a job: the scripts change if the runner is known. -/
inductive JobOver (location : Location) (job : Entries) : Editing Entries → Prop
  | wrapped {runner word : String} {change : Editing Entries} : job.text? "runs-on" = some runner →
      CallsBy runner word → ScriptsOver word location job change → JobOver location job change
  | kept : (∀ runner word, job.text? "runs-on" = some runner → ¬ CallsBy runner word) →
      JobOver location job (pure job)

/-- The root of a repository holds the wrapper: a file, with links followed. -/
def HoldsWrapper (tree : FileTree) (home : Route) (root : String) : Prop :=
  ∃ content mode, tree.entry home (Path.join root "gradlew") = .ok (.file content mode)

/-- What becomes of a document: its jobs change if the repository holds the wrapper. -/
inductive DocumentOver (tree : FileTree) (home : Route) (root : String) (doc : Value) :
    Editing Value → Prop
  | wrapped {change : Editing Value} : HoldsWrapper tree home root →
      Value.ChangesJobs JobOver doc change → DocumentOver tree home root doc change
  | kept : ¬ HoldsWrapper tree home root → DocumentOver tree home root doc (pure doc)

/-! ## One script -/

section Script

variable {runner word : String}

theorem call?_eq_some_iff {call : String} :
    call? runner = some call ↔ ∃ word, CallsBy runner word ∧ call = word ++ " " := by
  simp only [call?, startsWith, Bool.or_eq_true, Text.startsWith_iff]
  constructor
  · intro h
    split at h
    · next hpath => exact ⟨"./gradlew", .path hpath rfl, (Option.some.inj h).symm⟩
    · split at h
      · next hname => exact ⟨"gradlew", .name hname rfl, (Option.some.inj h).symm⟩
      · cases h
  · rintro ⟨word, hpath | ⟨hname, rfl⟩, rfl⟩
    · next hword =>
      rw [if_pos hpath, hword]
      rfl
    · have hother : ¬ ("ubuntu-".toList <+: runner.toList ∨ "macos-".toList <+: runner.toList) := by
        obtain ⟨rest, hrest⟩ := hname
        rw [← hrest, ← Text.startsWith_iff, ← Text.startsWith_iff]
        exact not_or.mpr ⟨Bool.false_ne_true, Bool.false_ne_true⟩
      rw [if_neg hother, if_pos hname]
      rfl

theorem CallsBy.toList_ne {line : List Char} (h : CallsBy runner word) :
    ¬ LineCalls (word.toList ++ ' ' :: line) := by
  rw [LineCalls, ← Text.startsWith_iff]
  cases h with
  | path _ hword =>
    rw [hword]
    exact Bool.false_ne_true
  | name _ hword =>
    rw [hword]
    exact Bool.false_ne_true

theorem overLine_of_calls (call rest : List Char) :
    overLine call ("gradle ".toList ++ rest) = call ++ rest := by
  rw [overLine, Text.dropPrefix?_eq_some_iff.mpr rfl]

theorem overLine_of_not_calls {line : List Char} (h : ¬ LineCalls line) (call : List Char) :
    overLine call line = line := by
  unfold overLine
  split
  · next rest hrest => exact absurd ⟨rest, (Text.dropPrefix?_eq_some_iff.mp hrest).symm⟩ h
  · rfl

theorem lineOver_overLine (word : String) (line : List Char) :
    LineOver word line (overLine (word ++ " ").toList line) := by
  by_cases h : LineCalls line
  · obtain ⟨rest, rfl⟩ := h
    have hcall : (word ++ " ").toList ++ rest = word.toList ++ ' ' :: rest := by simp
    rw [overLine_of_calls, hcall]
    exact .wrapped rest
  · rw [overLine_of_not_calls h]
    exact .kept h

theorem LineOver.not_calls {old new : List Char} (hword : CallsBy runner word)
    (h : LineOver word old new) : ¬ LineCalls new := by
  cases h with
  | wrapped rest => exact hword.toList_ne
  | kept h => exact h

theorem linesOf_overScript (h : CallsBy runner word) (script : String) :
    linesOf (overScript (word ++ " ") script) =
      (linesOf script).map (overLine (word ++ " ").toList) :=
  pieces_overScript (call?_eq_some_iff.mpr ⟨word, h, rfl⟩) script

theorem not_calls_overScript (h : CallsBy runner word) (script : String) :
    ¬ Calls (overScript (word ++ " ") script) := by
  rintro ⟨new, hnew, hcalls⟩
  rw [linesOf_overScript h] at hnew
  obtain ⟨line, -, rfl⟩ := List.mem_map.mp hnew
  exact (lineOver_overLine word line).not_calls h hcalls

theorem overScript_of_not_calls {script : String} (h : ¬ Calls script) (call : String) :
    overScript call script = script := by
  have hlines : (Text.pieces '\n' script.toList).map (overLine call.toList) =
      Text.pieces '\n' script.toList :=
    (List.map_congr_left fun line hline =>
      overLine_of_not_calls (fun hcalls => h ⟨line, hline, hcalls⟩) _).trans (List.map_id _)
  rw [overScript, hlines, Text.join_pieces, String.ofList_toList]

theorem CallsBy.trimEnd (h : CallsBy runner word) :
    String.ofList (Text.trimEnd (word ++ " ").toList) = word := by
  cases h with
  | path _ hword =>
    rw [hword]
    rfl
  | name _ hword =>
    rw [hword]
    rfl

/-- A script changes if and only if it calls the tool. -/
theorem scriptOver_change (h : CallsBy runner word) (location : Location) (script : String) :
    ScriptOver word location script (change (word ++ " ") location script) := by
  by_cases hcalls : Calls script
  · have hnew := not_calls_overScript h script
    have hne : overScript (word ++ " ") script ≠ script := by
      intro heq
      rw [heq] at hnew
      exact hnew hcalls
    rw [change, if_neg hne, h.trimEnd]
    refine .wrapped hcalls hnew ?_
    rw [linesOf_overScript h, List.forall₂_map_right_iff, List.forall₂_same]
    exact fun line _ => lineOver_overLine word line
  · rw [change, if_pos (overScript_of_not_calls hcalls _)]
    exact .kept hcalls

end Script

/-! ## The scripts of a job -/

section Walk

variable {key value : Value} {script : String}

theorem script?_eq_some_iff :
    script? key value = some script ↔ key.keyText = "run" ∧ value = .string script := by
  unfold script?
  split
  · split
    · next hkey => simp [hkey]
    · next hkey => simp [hkey]
  · next hvalue =>
    constructor
    · intro h
      cases h
    · rintro ⟨-, rfl⟩
      exact absurd rfl (hvalue script)

theorem changeInEntries_of_script (h : script? key value = some script) (call : String)
    (location : Location) (rest : Entries) :
    changeInEntries call location ((key, value) :: rest) =
      ⟨(key, .string (change call (location.key key.keyText) script).result) ::
          (changeInEntries call location rest).result,
        (change call (location.key key.keyText) script).edits ++
          (changeInEntries call location rest).edits⟩ := by
  obtain ⟨hkey, rfl⟩ := script?_eq_some_iff.mp h
  rw [changeInEntries]
  dsimp only
  rw [if_pos hkey]
  exact Editing.eq_of_parts rfl (by simp)

theorem changeInEntries_of_none (h : script? key value = none) (call : String)
    (location : Location) (rest : Entries) :
    changeInEntries call location ((key, value) :: rest) =
      ⟨(key, (changeAt call (location.key key.keyText) value).result) ::
          (changeInEntries call location rest).result,
        (changeAt call (location.key key.keyText) value).edits ++
          (changeInEntries call location rest).edits⟩ := by
  cases value with
  | string script =>
    have hkey : key.keyText ≠ "run" := by
      intro hkey
      rw [script?, if_pos hkey] at h
      cases h
    rw [changeInEntries]
    dsimp only
    rw [if_neg hkey]
    exact Editing.eq_of_parts rfl (by simp [changeAt])
  | _ => exact Editing.eq_of_parts rfl (by simp [changeInEntries])

/-- What is no script does not become one. -/
theorem script?_changeAt (h : script? key value = none) (call : String) (location : Location) :
    script? key (changeAt call location value).result = none := by
  cases value with
  | string script => exact h
  | _ => rfl

/-- What the change makes of a script. -/
def changed (call : String) (script : Location × String) : Location × String :=
  (script.1, (change call script.1 script.2).result)

mutual

theorem scriptsAt_changeAt (call : String) (location : Location) : ∀ value : Value,
    scriptsAt location (changeAt call location value).result =
      (scriptsAt location value).map (changed call)
  | .mapping entries => scriptsOfEntries_changeInEntries call location entries
  | .sequence items => scriptsOfItems_changeInItems call location 0 items
  | .tagged _ _ | .string _ | .number _ | .bool _ | .null => rfl

theorem scriptsOfEntries_changeInEntries (call : String) (location : Location) :
    ∀ entries : List (Value × Value),
      scriptsOfEntries location (changeInEntries call location entries).result =
        (scriptsOfEntries location entries).map (changed call)
  | [] => rfl
  | (key, value) :: rest => by
    have hrest := scriptsOfEntries_changeInEntries call location rest
    have hvalue := scriptsAt_changeAt call (location.key key.keyText) value
    cases hscript : script? key value with
    | some script =>
      have hkey := (script?_eq_some_iff.mp hscript).1
      rw [changeInEntries_of_script hscript, scriptsOfEntries, scriptsOfEntries, hscript,
        script?_eq_some_iff.mpr ⟨hkey, rfl⟩, hrest]
      rfl
    | none =>
      rw [changeInEntries_of_none hscript, scriptsOfEntries, scriptsOfEntries, hscript,
        script?_changeAt hscript, hrest]
      dsimp only
      rw [hvalue, List.map_append]

theorem scriptsOfItems_changeInItems (call : String) (location : Location) (i : Nat) :
    ∀ items : List Value, scriptsOfItems location i (changeInItems call location i items).result =
      (scriptsOfItems location i items).map (changed call)
  | [] => rfl
  | item :: rest => by
    have hitem := scriptsAt_changeAt call (location.index i) item
    have hrest := scriptsOfItems_changeInItems call location (i + 1) rest
    rw [scriptsOfItems, List.map_append, ← hitem, ← hrest]
    rfl

end

mutual

theorem aroundScripts_changeAt (call : String) (location : Location) : ∀ value : Value,
    aroundScripts (changeAt call location value).result = aroundScripts value
  | .mapping entries => congrArg Value.mapping (aroundScripts_changeInEntries call location entries)
  | .sequence items => congrArg Value.sequence (aroundScripts_changeInItems call location 0 items)
  | .tagged _ _ | .string _ | .number _ | .bool _ | .null => rfl

theorem aroundScripts_changeInEntries (call : String) (location : Location) :
    ∀ entries : List (Value × Value),
      aroundScriptsOfEntries (changeInEntries call location entries).result =
        aroundScriptsOfEntries entries
  | [] => rfl
  | (key, value) :: rest => by
    have hrest := aroundScripts_changeInEntries call location rest
    have hvalue := aroundScripts_changeAt call (location.key key.keyText) value
    cases hscript : script? key value with
    | some script =>
      have hkey := (script?_eq_some_iff.mp hscript).1
      rw [changeInEntries_of_script hscript, aroundScriptsOfEntries, aroundScriptsOfEntries,
        hscript, script?_eq_some_iff.mpr ⟨hkey, rfl⟩, hrest]
    | none =>
      rw [changeInEntries_of_none hscript, aroundScriptsOfEntries, aroundScriptsOfEntries, hscript,
        script?_changeAt hscript, hrest]
      dsimp only
      rw [hvalue]

theorem aroundScripts_changeInItems (call : String) (location : Location) (i : Nat) :
    ∀ items : List Value, aroundScriptsOfItems (changeInItems call location i items).result =
      aroundScriptsOfItems items
  | [] => rfl
  | item :: rest => congrArg₂ List.cons (aroundScripts_changeAt call (location.index i) item)
      (aroundScripts_changeInItems call location (i + 1) rest)

end

mutual

theorem edits_changeAt (call : String) (location : Location) : ∀ value : Value,
    (changeAt call location value).edits =
      (scriptsAt location value).flatMap fun script => (change call script.1 script.2).edits
  | .mapping entries => (List.append_nil _).trans (edits_changeInEntries call location entries)
  | .sequence items => (List.append_nil _).trans (edits_changeInItems call location 0 items)
  | .tagged _ _ | .string _ | .number _ | .bool _ | .null => rfl

theorem edits_changeInEntries (call : String) (location : Location) :
    ∀ entries : List (Value × Value), (changeInEntries call location entries).edits =
      (scriptsOfEntries location entries).flatMap fun script =>
        (change call script.1 script.2).edits
  | [] => rfl
  | (key, value) :: rest => by
    have hrest := edits_changeInEntries call location rest
    have hvalue := edits_changeAt call (location.key key.keyText) value
    cases hscript : script? key value with
    | some script =>
      rw [changeInEntries_of_script hscript, scriptsOfEntries, hscript, hrest, List.flatMap_append,
        List.flatMap_singleton]
    | none =>
      rw [changeInEntries_of_none hscript, scriptsOfEntries, hscript, hrest, List.flatMap_append,
        hvalue]

theorem edits_changeInItems (call : String) (location : Location) (i : Nat) :
    ∀ items : List Value, (changeInItems call location i items).edits =
      (scriptsOfItems location i items).flatMap fun script => (change call script.1 script.2).edits
  | [] => rfl
  | item :: rest => by
    have hitem := edits_changeAt call (location.index i) item
    have hrest := edits_changeInItems call location (i + 1) rest
    rw [changeInItems, scriptsOfItems, List.flatMap_append, ← hitem, ← hrest]
    simp only [Editing.edits_bind, Editing.edits_pure, List.append_nil]

end

end Walk

/-! ## Jobs and documents -/

theorem scriptsOver_changeInEntries {runner word : String} (h : CallsBy runner word)
    (location : Location) (job : Entries) :
    ScriptsOver word location job (changeInEntries (word ++ " ") location job) := by
  refine ⟨aroundScripts_changeInEntries _ location job,
    (scriptsOfEntries location job).map fun script => change (word ++ " ") script.1 script.2,
    ?_, ?_, ?_⟩
  · rw [List.forall₂_map_right_iff, List.forall₂_same]
    exact fun script _ => scriptOver_change h script.1 script.2
  · rw [scriptsOfEntries_changeInEntries, List.zipWith_map_right, List.zipWith_self]
    rfl
  · rw [edits_changeInEntries, List.flatMap_map]

theorem jobOver_overJob (location : Location) (job : Entries) :
    JobOver location job (overJob location job) := by
  unfold overJob
  split
  · next call hcall =>
    obtain ⟨runner, hrunner, hcalls⟩ := Option.bind_eq_some_iff.mp hcall
    obtain ⟨word, hword, rfl⟩ := call?_eq_some_iff.mp hcalls
    exact .wrapped hrunner hword (scriptsOver_changeInEntries hword location job)
  · next hnone =>
    refine .kept fun runner word hrunner hword => ?_
    rw [hrunner, Option.bind_some, call?_eq_some_iff.mpr ⟨word, hword, rfl⟩] at hnone
    cases hnone

theorem isFile_iff {tree : FileTree} {home : Route} {root : String} :
    tree.isFile home (Path.join root Plan.gradleWrapper) = true ↔ HoldsWrapper tree home root := by
  unfold FileTree.isFile HoldsWrapper Plan.gradleWrapper
  split
  · next content mode hentry => exact iff_of_true rfl ⟨content, mode, hentry⟩
  · next hentry =>
    refine iff_of_false Bool.false_ne_true ?_
    rintro ⟨content, mode, hfile⟩
    exact hentry content mode hfile

/-- In a repository that holds the wrapper, every script of a job whose runner is known calls the
wrapper on the lines on which it called the tool, with one edit for each script that changes.
Everything else is kept, and so is the whole document if there is no wrapper. -/
theorem visit_wraps (tree : FileTree) (home : Route) (root path text : String) (doc : Value) :
    DocumentOver tree home root doc
      (visit ⟨path, text, tree.isFile home (Path.join root Plan.gradleWrapper)⟩ doc) := by
  unfold visit
  split
  · next hwrapper =>
    exact .wrapped (isFile_iff.mp hwrapper) (Value.changesJobs_overJobs jobOver_overJob doc)
  · next hnone => exact .kept (mt isFile_iff.mpr hnone)

/-- The second line of the first script does not start with the name of the tool. The script under a
tag and the one of an unknown runner are kept. -/
example :
    let job (runner : String) (script : Value) : Value := .mapping [
      (.string "runs-on", .string runner),
      (.string "steps", .sequence [.mapping [(.string "run", script)]])]
    let script : Value := .string "gradle build\n gradle test\r\ngradle check\n"
    let jobs (first : Value) : Value := .mapping [(.string "jobs", .mapping [
      (.string "a", first), (.string "b", job "windows-2022" (.tagged "x" script)),
      (.string "c", job "self-hosted" script)])]
    (visit ⟨"", "", true⟩ (jobs (job "macos-14" script))).edits =
      [⟨⟨[.key "jobs", .key "a", .key "steps", .index 0, .key "run"]⟩, "gradle -> ./gradlew"⟩] := by
  decide

end WorkflowRecipes.GradleWrapper
