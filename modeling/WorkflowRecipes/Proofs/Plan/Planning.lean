import WorkflowRecipes.Plan.Basic
import WorkflowRecipes.Proofs.FileTree.Work

/-!
# What planning finds

Planning looks at a tree and leaves it as it is. A plan has one entry for each file that is found,
and what it says about a file comes from the text of that file.

Results:
1. `FilePlan.ofText_modify_iff`: a file is modified exactly if there is a new text for it.
2. `ofRepository_ends`: a plan lists the files that are found, and holds their texts.
3. `candid_ofRepository`: a plan is made only if no step went wrong, but for files that are no text.
-/

namespace WorkflowRecipes

open Disk

namespace FilePlan

variable {context : Context} {recipes : List Recipe} {plan : FilePlan}

/-- The plan for a text is one of these: the file is kept, skipped or modified. -/
theorem ofText_cases (h : ofText context recipes = .ok plan) :
    plan.path = context.path ∧ plan.before = context.text ∧
      (plan.action = .modify ↔ plan.after.isSome) := by
  unfold ofText at h
  dsimp only at h
  split at h
  · cases h
    exact ⟨rfl, rfl, by simp⟩
  split at h
  · cases h
    exact ⟨rfl, rfl, by simp⟩
  · unfold ofDocuments at h
    dsimp only at h
    split at h
    · cases h
      exact ⟨rfl, rfl, by simp⟩
    split at h
    · cases h
      exact ⟨rfl, rfl, by simp⟩
    · cases h

theorem ofText_path (h : ofText context recipes = .ok plan) : plan.path = context.path :=
  (ofText_cases h).1

theorem ofText_before (h : ofText context recipes = .ok plan) : plan.before = context.text :=
  (ofText_cases h).2.1

/-- A file is modified exactly if there is a new text for it. -/
theorem ofText_modify_iff (h : ofText context recipes = .ok plan) :
    plan.action = .modify ↔ plan.after.isSome :=
  (ofText_cases h).2.2

end FilePlan

namespace Plan

/-- The plan for a file fits a tree: there is a new text exactly if the file is modified, and then
the old text is that of the file. -/
structure Fits (tree : FileTree) (home : Route) (root : String) (file : FilePlan) : Prop where
  modify_iff : file.action = .modify ↔ file.after.isSome
  before : file.action = .modify → tree.readText home (Path.join root file.path) = .ok file.before

variable {root : String} {hasGradleWrapper : Bool} {recipes : List Recipe} {disk : Disk}

/-- Nothing but the troubles that were met differs between two states of a disk. -/
def Untouched (before after : Disk) : Prop := after.tree = before.tree ∧ after.home = before.home

theorem Untouched.refl (disk : Disk) : Untouched disk disk := ⟨rfl, rfl⟩

theorem Untouched.trans {a b c : Disk} (hab : Untouched a b) (hbc : Untouched b c) :
    Untouched a c :=
  ⟨hbc.1.trans hab.1, hbc.2.trans hab.2⟩

/-- The text that is read is that of the file. -/
theorem readText?_ends (path : String) (disk : Disk) :
    Ends (readText? path) disk (Either
      (fun text? after => Untouched disk after ∧
        ∀ text, text? = some text → disk.tree.readText disk.home path = .ok text)
      fun _ after => Untouched disk after) := by
  have hread : Ends (readText path) disk (Either
      (fun text after => Untouched disk after ∧ disk.tree.readText disk.home path = .ok text)
      fun _ after => Untouched disk after) :=
    Ends.look (fun _ _ h => ⟨⟨rfl, rfl⟩, h⟩) fun _ _ => ⟨rfl, rfl⟩
  have hsome : Ends (some <$> readText path) disk (Either
      (fun text? after => Untouched disk after ∧
        ∀ text, text? = some text → disk.tree.readText disk.home path = .ok text)
      fun _ after => Untouched disk after) := by
    rw [map_eq_pure_bind]
    refine hread.bind ?_ fun _ _ h => h
    rintro text after ⟨hsame, h⟩
    exact Ends.pure ⟨hsame, fun _ h' => by cases h'; exact h⟩
  refine hsome.tryCatch (fun _ _ h => h) ?_
  intro fault after hsame
  split
  · exact Ends.pure ⟨hsame, fun _ h => by cases h⟩
  · exact Ends.throw hsame

/-- A planning that fails leaves everything as it was, and does not fail because of findings. -/
def Failed (before : Disk) (fault : RunError) (after : Disk) : Prop :=
  Untouched before after ∧ ∀ count, fault ≠ .findings count

theorem ofFile_ends (path : String) (disk : Disk) :
    Ends (ofFile root hasGradleWrapper recipes path) disk (Either
      (fun file after => Untouched disk after ∧ file.path = path ∧
        Fits disk.tree disk.home root file)
      (Failed disk)) := by
  unfold ofFile
  split
  · exact Ends.pure ⟨.refl _, rfl, by simp, by simp⟩
  have hread : Ends (blame (RunError.read (Path.join root path)) <|
      readText? (Path.join root path)) disk (Either
        (fun text? after => Untouched disk after ∧ ∀ text, text? = some text →
          disk.tree.readText disk.home (Path.join root path) = .ok text)
        (Failed disk)) := by
    refine Ends.blame ((readText?_ends _ disk).imp ?_)
    rintro (fault | text?) after h
    · exact ⟨h, fun _ h' => by cases h'⟩
    · exact h
  refine hread.bind ?_ fun _ _ h => h
  rintro (_ | text) after ⟨hsame, htext⟩
  · exact Ends.pure ⟨hsame, rfl, by simp, by simp⟩
  dsimp only
  split
  · next file hfile =>
    have hpath := FilePlan.ofText_path hfile
    refine Ends.pure ⟨hsame, hpath, FilePlan.ofText_modify_iff hfile, fun _ => ?_⟩
    rw [hpath, FilePlan.ofText_before hfile]
    exact htext text rfl
  · exact Ends.throw ⟨hsame, fun _ h => by cases h⟩

/-- A plan lists the files that are found, in order, and fits them. -/
theorem ofRepository_ends (name root : String) (recipes : List Recipe) (disk : Disk) :
    Ends (ofRepository name root recipes) disk (Either
      (fun plan after => Untouched disk after ∧
        plan.files.map (·.path) = Discover.files disk.tree disk.home root ∧
          ∀ file ∈ plan.files, Fits disk.tree disk.home root file)
      (Failed disk)) := by
  have hlook : Ends (blame (RunError.walk (Path.join root Discover.directory)) <|
      look fun tree home => .ok (Discover.files tree home root)) disk (Either
        (fun paths after => Untouched disk after ∧
          paths = Discover.files disk.tree disk.home root)
        (Failed disk)) := by
    refine Ends.blame (Ends.look ?_ fun _ _ => ⟨⟨rfl, rfl⟩, fun _ h => by cases h⟩)
    intro paths _ h
    cases h
    exact ⟨⟨rfl, rfl⟩, rfl⟩
  refine hlook.bind ?_ fun _ _ h => h
  rintro paths seen ⟨hseen, rfl⟩
  refine Ends.ask_bind ?_
  have hfiles : Ends ((Discover.files disk.tree disk.home root).mapM
      (ofFile root (seen.tree.isFile seen.home (Path.join root gradleWrapper)) recipes)) seen
      (Either
        (fun files after => Untouched disk after ∧
          files.map (·.path) = Discover.files disk.tree disk.home root ∧
            ∀ file ∈ files, Fits disk.tree disk.home root file)
        (Failed disk)) := by
    -- The plans that are made so far are those of the paths that were taken so far.
    refine Ends.mapM (fun done files after => Untouched disk after ∧ files.map (·.path) = done ∧
      ∀ file ∈ files, Fits disk.tree disk.home root file) _ ?_ ⟨hseen, rfl, by simp⟩
    rintro done path rest files middle - ⟨hmiddle, hpath, hfits⟩
    refine (ofFile_ends path middle).imp ?_
    rintro (fault | file) after h
    · exact ⟨hmiddle.trans h.1, h.2⟩
    · obtain ⟨hsame, hp, hf⟩ := h
      rw [hmiddle.1, hmiddle.2] at hf
      refine ⟨hmiddle.trans hsame, by simp [hpath, hp], ?_⟩
      intro other hmem
      rcases List.mem_append.mp hmem with hmem | hmem
      · exact hfits other hmem
      · rw [List.mem_singleton.mp hmem]
        exact hf
  refine hfiles.bind ?_ fun _ _ h => h
  rintro files after h
  exact Ends.pure h

/-! ## Troubles while planning -/

theorem candid_readText? (path : String) : Candid (· = .notText) (readText? path) := by
  intro disk text? after h
  rcases ho : outcome (readText path) disk with ⟨result, middle⟩
  rw [readText?, outcome_tryCatch, map_eq_pure_bind, outcome_bind, ho] at h
  unfold readText look at ho
  cases result with
  | ok text =>
    simp only [outcome_pure] at h
    cases h
    exact Candid.step _ _ _ _ ho
  | error fault =>
    cases fault with
    | notText =>
      simp only [outcome_pure] at h
      cases h
      exact clear_of_step_error rfl ho
    | _ =>
      simp only [outcome_throw] at h
      cases h

theorem candid_ofFile (path : String) :
    Candid (· = .notText) (ofFile root hasGradleWrapper recipes path) := by
  unfold ofFile
  split
  · exact Candid.pure _
  refine ((candid_readText? _).blame _).bind ?_
  rintro (_ | text)
  · exact Candid.pure _
  dsimp only
  split
  · exact Candid.pure _
  · exact Candid.throw _

/-- A plan is made only if no step went wrong, but for files that turned out to be no text. -/
theorem candid_ofRepository (name root : String) (recipes : List Recipe) :
    Candid (· = .notText) (ofRepository name root recipes) := by
  unfold ofRepository
  refine ((Candid.step _).blame _).bind fun paths => (Candid.ask _).bind fun hasGradleWrapper => ?_
  exact (Candid.mapM candid_ofFile paths).bind fun _ => Candid.pure _

end Plan

end WorkflowRecipes
