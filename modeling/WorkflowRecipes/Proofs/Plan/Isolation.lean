import WorkflowRecipes.Proofs.Plan.Discovery
import WorkflowRecipes.Proofs.Plan.Planning
import WorkflowRecipes.Proofs.Plan.Repetition

/-!
# Files are planned apart

The entry of a file in a plan is made from the octets of that file, and from whether the repository
has a Gradle wrapper. No other file has a say in it, and none that is no text or cannot be read as
documents keeps a plan from being made.

Results:
1. `FilePlan.ofOctets`: the entry of a file, from its octets alone.
2. `Plan.ofRepository_spent`: what planning comes to, file by file.
3. `Plan.files_isolated`: entries in two plans agree where the octets of the file do.
-/

namespace WorkflowRecipes

open Disk

namespace FilePlan

/-- Whether one of the recipes is meant for a path. -/
def isTargeted (recipes : List Recipe) (path : String) : Bool :=
  recipes.any fun recipe => recipe.isMeantFor path

/-- The documents that octets are the text of. -/
def documentsOf? (octets : ByteArray) : Option (List Value) :=
  (String.fromUTF8? octets).bind Yaml.documents?

/-- The entry for a file with these octets. -/
def ofOctets (recipes : List Recipe) (hasGradleWrapper : Bool) (path : String)
    (octets : ByteArray) : Except RenderFault FilePlan :=
  if !isTargeted recipes path then .ok { path }
  else
    match String.fromUTF8? octets with
    | none => .ok { path, action := .skip }
    | some text => ofText { path, text, hasGradleWrapper } recipes

variable {recipes : List Recipe} {hasGradleWrapper : Bool} {path : String} {octets : ByteArray}

theorem ofOctets_of_not_targeted (h : isTargeted recipes path = false) :
    ofOctets recipes hasGradleWrapper path octets = .ok { path } := by
  unfold ofOctets
  rw [h]
  rfl

/-- Octets that are no text, or the text of no documents, are skipped. -/
theorem ofOctets_of_not_documents (htargeted : isTargeted recipes path = true)
    (h : documentsOf? octets = none) :
    ∃ file, ofOctets recipes hasGradleWrapper path octets = .ok file ∧ file.action = .skip := by
  unfold documentsOf? at h
  unfold ofOctets
  rw [htargeted, Bool.not_true, if_neg Bool.false_ne_true]
  cases htext : String.fromUTF8? octets with
  | none => exact ⟨_, rfl, rfl⟩
  | some text =>
    rw [htext, Option.bind_some] at h
    dsimp only
    rw [ofText_of_not_documents (by exact h)]
    refine ⟨_, rfl, if_neg ?_⟩
    obtain ⟨recipe, hrecipe, hmeant⟩ := List.any_eq_true.mp htargeted
    rw [List.isEmpty_iff]
    exact List.ne_nil_of_mem (List.mem_filter.mpr ⟨hrecipe, hmeant⟩)

/-- Only for octets that are the text of documents it can be that no entry is made. -/
theorem documentsOf?_of_ofOctets_error {fault : RenderFault}
    (h : ofOctets recipes hasGradleWrapper path octets = .error fault) :
    ∃ docs, documentsOf? octets = some docs := by
  cases htargeted : isTargeted recipes path with
  | false =>
    rw [ofOctets_of_not_targeted htargeted] at h
    cases h
  | true =>
    cases hdocs : documentsOf? octets with
    | some docs => exact ⟨docs, rfl⟩
    | none =>
      obtain ⟨file, hfile, -⟩ := ofOctets_of_not_documents htargeted hdocs
      rw [hfile] at h
      cases h

theorem ofOctets_path {file : FilePlan}
    (h : ofOctets recipes hasGradleWrapper path octets = .ok file) : file.path = path := by
  unfold ofOctets at h
  split at h
  · cases h
    rfl
  split at h
  · cases h
    rfl
  · exact ofText_path h

/-- Whether the entry of a file holds its text: a recipe is meant for it, and it is a text. -/
def holdsText (recipes : List Recipe) (path : String) (octets : ByteArray) : Bool :=
  isTargeted recipes path && (String.fromUTF8? octets).isSome

/-- An entry holds the text of the file, or it holds none and no new text either. -/
theorem ofOctets_holds {file : FilePlan}
    (h : ofOctets recipes hasGradleWrapper path octets = .ok file) :
    if holdsText recipes path octets then String.fromUTF8? octets = some file.before
    else file.before = "" ∧ file.after = none := by
  unfold holdsText
  cases htargeted : isTargeted recipes path with
  | false =>
    rw [ofOctets_of_not_targeted htargeted] at h
    cases h
    exact ⟨rfl, rfl⟩
  | true =>
    unfold ofOctets at h
    rw [htargeted, Bool.not_true, if_neg Bool.false_ne_true] at h
    cases htext : String.fromUTF8? octets with
    | none =>
      rw [htext] at h
      cases h
      exact ⟨rfl, rfl⟩
    | some text =>
      rw [htext] at h
      exact congrArg some (ofText_before h).symm

end FilePlan

/-! ## What was met on the way -/

namespace Disk

/-- What is foreseen to go wrong is never that octets are no text, which they alone can tell. -/
def Truthful (disk : Disk) : Prop := some .notText ∉ disk.troubles

/-- A disk on which nothing goes wrong. -/
theorem truthful_of_tree (tree : FileTree) : Truthful { tree } := List.not_mem_nil

/-- Nothing but troubles that were met tells two states of a disk apart. -/
structure Spent (before after : Disk) : Prop where
  untouched : Plan.Untouched before after
  troubles : ∀ trouble ∈ after.troubles, trouble ∈ before.troubles

theorem Spent.refl (disk : Disk) : Spent disk disk := ⟨.refl disk, fun _ h => h⟩

theorem Spent.trans {a b c : Disk} (hab : Spent a b) (hbc : Spent b c) : Spent a c :=
  ⟨hab.untouched.trans hbc.untouched, fun trouble h => hab.troubles trouble (hbc.troubles trouble h)⟩

theorem Spent.tail (disk : Disk) : Spent disk { disk with troubles := disk.troubles.tail } :=
  ⟨⟨rfl, rfl⟩, fun _ h => List.mem_of_mem_tail h⟩

theorem Spent.truthful {before after : Disk} (h : Spent before after) (htruth : before.Truthful) :
    after.Truthful :=
  fun hmem => htruth (h.troubles _ hmem)

/-- A look sees what is there, unless it was foreseen to fail. -/
theorem look_spent {α : Type} (act : FileTree → Route → Except FileFault α) (disk : Disk) :
    Ends (look act) disk fun result after => Spent disk after ∧
      (result = act disk.tree disk.home ∨
        ∃ fault, some fault ∈ disk.troubles ∧ result = .error fault) := by
  unfold Ends look
  rw [outcome_step]
  split
  · next fault hfault =>
    refine ⟨.tail disk, .inr ⟨fault, ?_, rfl⟩⟩
    exact List.mem_of_mem_head? (Option.join_eq_some_iff.mp hfault)
  · cases hact : act disk.tree disk.home with
    | error fault => exact ⟨.tail disk, .inl rfl⟩
    | ok a => exact ⟨.tail disk, .inl rfl⟩

/-- The text of a file is read from its octets. -/
theorem readText?_spent {disk : Disk} (htruth : disk.Truthful) {path : String} {octets : ByteArray}
    (hread : disk.tree.read disk.home path = .ok octets) :
    Ends (readText? path) disk (Either
      (fun text? after => Spent disk after ∧ text? = String.fromUTF8? octets)
      fun fault after => Spent disk after ∧ some fault ∈ disk.troubles) := by
  have hlook : Ends (readText path) disk (Either
      (fun text after => Spent disk after ∧ String.fromUTF8? octets = some text)
      fun fault after => Spent disk after ∧
        (fault = .notText ∧ String.fromUTF8? octets = none ∨ some fault ∈ disk.troubles)) := by
    refine (look_spent _ disk).imp ?_
    rintro result after ⟨hspent, rfl | ⟨fault, hfault, rfl⟩⟩
    · unfold FileTree.readText
      rw [hread]
      cases htext : String.fromUTF8? octets with
      | none => simpa [Except.bind, htext, Either] using hspent
      | some text => simpa [Except.bind, htext, Either] using hspent
    · exact ⟨hspent, .inr hfault⟩
  have hsome : Ends (some <$> readText path) disk (Either
      (fun text? after => Spent disk after ∧ text? = String.fromUTF8? octets)
      fun fault after => Spent disk after ∧
        (fault = .notText ∧ String.fromUTF8? octets = none ∨ some fault ∈ disk.troubles)) := by
    rw [map_eq_pure_bind]
    refine hlook.bind ?_ fun _ _ h => h
    rintro text after ⟨hspent, htext⟩
    exact Ends.pure ⟨hspent, htext.symm⟩
  refine hsome.tryCatch (fun _ _ h => h) ?_
  rintro fault after ⟨hspent, hfault⟩
  split
  · -- That a file is no text is not foreseen, so its octets are none.
    obtain ⟨-, hnone⟩ := hfault.resolve_right htruth
    exact Ends.pure ⟨hspent, hnone.symm⟩
  · next hother =>
    exact Ends.throw ⟨hspent, hfault.resolve_left fun h => hother h.1⟩

end Disk

namespace Plan

variable {root : String} {hasGradleWrapper : Bool} {recipes : List Recipe}

theorem ofFile_spent {disk : Disk} (htruth : disk.Truthful) {path : String} {octets : ByteArray}
    (hread : disk.tree.read disk.home (Path.join root path) = .ok octets) :
    Ends (ofFile root hasGradleWrapper recipes path) disk (Either
      (fun file after => Spent disk after ∧
        FilePlan.ofOctets recipes hasGradleWrapper path octets = .ok file)
      fun fault after => Spent disk after ∧
        ((∃ cause, some cause ∈ disk.troubles ∧ fault = .read (Path.join root path) cause) ∨
          ∃ cause, FilePlan.ofOctets recipes hasGradleWrapper path octets = .error cause ∧
            fault = .render path cause)) := by
  unfold ofFile
  cases htargeted : FilePlan.isTargeted recipes path with
  | false =>
    rw [FilePlan.isTargeted] at htargeted
    rw [htargeted]
    exact Ends.pure ⟨.refl disk, FilePlan.ofOctets_of_not_targeted htargeted⟩
  | true =>
    unfold FilePlan.ofOctets
    rw [htargeted]
    rw [FilePlan.isTargeted] at htargeted
    rw [htargeted, Bool.not_true, if_neg Bool.false_ne_true, if_neg Bool.false_ne_true]
    have htext : Ends (blame (RunError.read (Path.join root path)) <|
        readText? (Path.join root path)) disk (Either
          (fun text? after => Spent disk after ∧ text? = String.fromUTF8? octets)
          fun fault after => Spent disk after ∧
            ∃ cause, some cause ∈ disk.troubles ∧ fault = .read (Path.join root path) cause) := by
      refine Ends.blame ((readText?_spent htruth hread).imp ?_)
      rintro (cause | text?) after ⟨hspent, h⟩
      · exact ⟨hspent, cause, h, rfl⟩
      · exact ⟨hspent, h⟩
    refine htext.bind ?_ fun _ _ h => ⟨h.1, .inl h.2⟩
    rintro text? after ⟨hspent, rfl⟩
    cases String.fromUTF8? octets with
    | none => exact Ends.pure ⟨hspent, rfl⟩
    | some text =>
      dsimp only
      cases hfile : FilePlan.ofText { path, text, hasGradleWrapper } recipes with
      | ok file => exact Ends.pure ⟨hspent, rfl⟩
      | error cause => exact Ends.throw ⟨hspent, .inr ⟨cause, rfl, rfl⟩⟩

/-- The entry of a file is made from the octets that the file has. -/
def IsEntry (tree : FileTree) (home : Route) (root : String) (recipes : List Recipe)
    (file : FilePlan) : Prop :=
  ∃ octets, tree.read home (Path.join root file.path) = .ok octets ∧
    FilePlan.ofOctets recipes (tree.isFile home (Path.join root gradleWrapper)) file.path octets =
      .ok file

/-- The octets of a file and the Gradle wrapper settle its entry. -/
theorem IsEntry.eq {tree tree' : FileTree} {home home' : Route} {root' : String}
    {file file' : FilePlan} (h : IsEntry tree home root recipes file)
    (h' : IsEntry tree' home' root' recipes file') (hpath : file'.path = file.path)
    (hread : tree'.read home' (Path.join root' file.path) =
      tree.read home (Path.join root file.path))
    (hgradle : tree'.isFile home' (Path.join root' gradleWrapper) =
      tree.isFile home (Path.join root gradleWrapper)) : file' = file := by
  obtain ⟨octets, hoctets, hentry⟩ := h
  obtain ⟨octets', hoctets', hentry'⟩ := h'
  rw [hpath, hread, hoctets] at hoctets'
  cases hoctets'
  rw [hpath, hgradle, hentry] at hentry'
  exact (Except.ok.inj hentry').symm

/-- Why a plan is not made: a step goes wrong for a reason outside the tree, or the documents of a
file cannot be written. -/
inductive Hindered (disk : Disk) (root : String) : RunError → Prop
  | walk {cause : FileFault} : some cause ∈ disk.troubles →
      Hindered disk root (.walk (Path.join root Discover.directory) cause)
  | read {path : String} {cause : FileFault} : some cause ∈ disk.troubles →
      path ∈ Discover.files disk.tree disk.home root →
        Hindered disk root (.read (Path.join root path) cause)
  | render {path : String} {octets : ByteArray} {docs : List Value} {cause : RenderFault} :
      path ∈ Discover.files disk.tree disk.home root →
        disk.tree.read disk.home (Path.join root path) = .ok octets →
          FilePlan.documentsOf? octets = some docs → Hindered disk root (.render path cause)

theorem ofFile_isEntry {before disk : Disk} (hwf : before.tree.WellFormed)
    (htruth : before.Truthful) (hspent : Spent before disk) {path : String}
    (hpath : path ∈ Discover.files before.tree before.home root) :
    Ends (ofFile root (before.tree.isFile before.home (Path.join root gradleWrapper)) recipes path)
      disk (Either
        (fun file after => Spent before after ∧ file.path = path ∧
          IsEntry before.tree before.home root recipes file)
        fun fault _ => Hindered before root fault) := by
  obtain ⟨route, octets, mode, hroute, hfile⟩ := Discover.files_lead hwf hpath
  have hread := FileTree.read_of_file (hroute true) hfile
  obtain ⟨htree, hhome⟩ := hspent.untouched
  refine (ofFile_spent (hspent.truthful htruth) (htree.symm ▸ hhome.symm ▸ hread)).imp ?_
  rintro (fault | file) after ⟨hafter, h⟩
  · rcases h with ⟨cause, hcause, rfl⟩ | ⟨cause, hcause, rfl⟩
    · exact .read (hspent.troubles _ hcause) hpath
    · obtain ⟨docs, hdocs⟩ := FilePlan.documentsOf?_of_ofOctets_error hcause
      exact .render hpath hread hdocs
  · obtain rfl := FilePlan.ofOctets_path h
    exact ⟨hspent.trans hafter, rfl, octets, hread, h⟩

/-- A plan has an entry for each file that is found, in order; or it is hindered. -/
theorem ofRepository_spent {before : Disk} (hwf : before.tree.WellFormed)
    (htruth : before.Truthful) (name root : String) (recipes : List Recipe) :
    Ends (ofRepository name root recipes) before (Either
      (fun plan _ => plan.files.map (·.path) = Discover.files before.tree before.home root ∧
        ∀ file ∈ plan.files, IsEntry before.tree before.home root recipes file)
      fun fault _ => Hindered before root fault) := by
  have hlook : Ends (blame (RunError.walk (Path.join root Discover.directory)) <|
      look fun tree home => .ok (Discover.files tree home root)) before (Either
        (fun paths after => Spent before after ∧
          paths = Discover.files before.tree before.home root)
        fun fault _ => Hindered before root fault) := by
    refine Ends.blame ((look_spent _ before).imp ?_)
    rintro result after ⟨hspent, rfl | ⟨cause, hcause, rfl⟩⟩
    · exact ⟨hspent, rfl⟩
    · exact .walk hcause
  refine hlook.bind ?_ fun _ _ h => h
  rintro paths seen ⟨hseen, rfl⟩
  refine Ends.ask_bind ?_
  have hfiles : Ends ((Discover.files before.tree before.home root).mapM
      (ofFile root (seen.tree.isFile seen.home (Path.join root gradleWrapper)) recipes)) seen
      (Either
        (fun files after => Spent before after ∧
          files.map (·.path) = Discover.files before.tree before.home root ∧
            ∀ file ∈ files, IsEntry before.tree before.home root recipes file)
        fun fault _ => Hindered before root fault) := by
    rw [hseen.untouched.1, hseen.untouched.2]
    -- No entry made so far depends on the others, only on the tree, which stays as it was.
    refine Ends.mapM (fun done files after => Spent before after ∧ files.map (·.path) = done ∧
      ∀ file ∈ files, IsEntry before.tree before.home root recipes file) _ ?_ ⟨hseen, rfl, by simp⟩
    rintro done path rest files middle hpaths ⟨hmiddle, hdone, hentries⟩
    have hpath : path ∈ Discover.files before.tree before.home root := by
      rw [hpaths]
      exact List.mem_append_right _ List.mem_cons_self
    refine (ofFile_isEntry hwf htruth hmiddle hpath).imp ?_
    rintro (fault | file) after h
    · exact h
    · obtain ⟨hspent, hp, hentry⟩ := h
      refine ⟨hspent, by simp [hdone, hp], ?_⟩
      rw [List.forall_mem_append]
      exact ⟨hentries, List.forall_mem_singleton.mpr hentry⟩
  refine hfiles.bind ?_ fun _ _ h => h
  rintro files after ⟨-, hpaths, hentries⟩
  exact Ends.pure ⟨hpaths, hentries⟩

/-- Files are planned apart. A plan has one entry for each file that is found, in order. A file that
no recipe is meant for is kept, and one that is no text or has no documents is skipped if there is
such a recipe. If a file that is found in another repository as well has the same octets there, and
both repositories or neither have a Gradle wrapper, then the plans for them share its entry. Where
no plan is made, the reason lies outside the tree, or in documents that cannot be written. -/
theorem files_isolated {before : Disk} (hwf : before.tree.WellFormed) (htruth : before.Truthful)
    (name root : String) (recipes : List Recipe) :
    (∀ plan after, outcome (ofRepository name root recipes) before = (.ok plan, after) →
      plan.files.map (·.path) = Discover.files before.tree before.home root ∧
      (plan.files.map (·.path)).Nodup ∧
      (∀ file ∈ plan.files, FilePlan.isTargeted recipes file.path = false →
        file = { path := file.path }) ∧
      (∀ file ∈ plan.files, FilePlan.isTargeted recipes file.path = true → ∀ octets,
        before.tree.read before.home (Path.join root file.path) = .ok octets →
          FilePlan.documentsOf? octets = none → file.action = .skip) ∧
      ∀ (name' root' : String) (other : Disk), other.tree.WellFormed → other.Truthful →
        ∀ plan' after', outcome (ofRepository name' root' recipes) other = (.ok plan', after') →
          other.tree.isFile other.home (Path.join root' gradleWrapper) =
            before.tree.isFile before.home (Path.join root gradleWrapper) →
          ∀ path ∈ Discover.files before.tree before.home root,
            path ∈ Discover.files other.tree other.home root' →
            other.tree.read other.home (Path.join root' path) =
              before.tree.read before.home (Path.join root path) →
            ∃ file ∈ plan.files, file ∈ plan'.files ∧ file.path = path) ∧
    ∀ fault after, outcome (ofRepository name root recipes) before = (.error fault, after) →
      Hindered before root fault := by
  constructor
  · intro plan after hplan
    obtain ⟨hpaths, hentries⟩ := (ofRepository_spent hwf htruth name root recipes).of_outcome hplan
    refine ⟨hpaths, hpaths ▸ Discover.files_nodup hwf _ _, ?_, ?_, ?_⟩
    · intro file hfile hnot
      obtain ⟨octets, -, hentry⟩ := hentries file hfile
      rw [FilePlan.ofOctets_of_not_targeted hnot] at hentry
      exact (Except.ok.inj hentry).symm
    · intro file hfile htargeted octets hread hdocs
      obtain ⟨octets', hread', hentry⟩ := hentries file hfile
      rw [hread] at hread'
      cases hread'
      obtain ⟨skipped, hskipped, haction⟩ := FilePlan.ofOctets_of_not_documents htargeted hdocs
      rw [hskipped] at hentry
      cases hentry
      exact haction
    · intro name' root' other hwf' htruth' plan' after' hplan' hgradle path hpath hpath' hread
      obtain ⟨hpaths', hentries'⟩ :=
        (ofRepository_spent hwf' htruth' name' root' recipes).of_outcome hplan'
      obtain ⟨file, hfile, rfl⟩ := List.mem_map.mp (hpaths ▸ hpath)
      obtain ⟨file', hfile', hsame⟩ := List.mem_map.mp (hpaths' ▸ hpath')
      have heq := (hentries file hfile).eq (hentries' file' hfile') hsame hread hgradle
      exact ⟨file, hfile, heq ▸ hfile', rfl⟩
  · intro fault after hfault
    exact (ofRepository_spent hwf htruth name root recipes).of_outcome hfault

/-! ### Two repositories with a file in common -/

/-- A tree with two workflows. -/
def pairTree (first second : ByteArray) : FileTree :=
  (FileTree.workflowsTree.put [".github", "workflows", "a.yml"] (.file first FileTree.fileMode)).put
    [".github", "workflows", "b.yml"] (.file second FileTree.fileMode)

theorem wellFormed_pairTree (first second : ByteArray) : (pairTree first second).WellFormed := by
  have hnone : ∀ name ∈ ["a.yml", "b.yml"],
      FileTree.workflowsTree.get? [".github", "workflows", name] = none := by
    have hall : ["a.yml", "b.yml"].all (fun name =>
      (FileTree.workflowsTree.get? [".github", "workflows", name]).isNone) = true := by decide +kernel
    intro name hname
    exact Option.isNone_iff_eq_none.mp (List.all_eq_true.mp hall name hname)
  have hfirst := FileTree.wellFormed_workflowsTree.put [".github", "workflows"] "a.yml"
    FileTree.get?_workflowsTree (hnone "a.yml" (by decide)) (by decide +kernel)
    (.file first FileTree.fileMode)
  have hstill : (FileTree.workflowsTree.put [".github", "workflows", "a.yml"]
      (.file first FileTree.fileMode)).get? [".github", "workflows"] =
        some (.directory FileTree.directoryMode) :=
    (FileTree.get?_put_of_ne (by decide) (by decide) _).trans FileTree.get?_workflowsTree
  refine hfirst.put [".github", "workflows"] "b.yml" hstill ?_ (by decide +kernel) _
  exact (FileTree.get?_put_of_ne (by decide) (by decide) _).trans (hnone "b.yml" (by decide))

/-- A workflow that can be started by hand only once it is changed. -/
def plainOctets : ByteArray := "on: \x7b\x7d\n".toUTF8

/-- Octets that are no text. -/
def noiseOctets : ByteArray := ⟨#[255, 254]⟩

/-- The first workflow is planned alike, whether the second one is a text or not. -/
theorem files_isolated_pair :
    ∃ plan plan' file,
      (outcome (ofRepository "one" "/" [.amendment .addManual])
        { tree := pairTree plainOctets noiseOctets }).1 = .ok plan ∧
      (outcome (ofRepository "two" "/" [.amendment .addManual])
        { tree := pairTree plainOctets plainOctets }).1 = .ok plan' ∧
      file ∈ plan.files ∧ file ∈ plan'.files ∧ file.path = ".github/workflows/a.yml" := by
  have hmade : (outcome (ofRepository "one" "/" [.amendment .addManual])
      { tree := pairTree plainOctets noiseOctets }).1.toOption.isSome = true := by
    decide +kernel
  have hmade' : (outcome (ofRepository "two" "/" [.amendment .addManual])
      { tree := pairTree plainOctets plainOctets }).1.toOption.isSome = true := by
    decide +kernel
  rcases hplan : outcome (ofRepository "one" "/" [.amendment .addManual])
    { tree := pairTree plainOctets noiseOctets } with ⟨result, after⟩
  rcases hplan' : outcome (ofRepository "two" "/" [.amendment .addManual])
    { tree := pairTree plainOctets plainOctets } with ⟨result', after'⟩
  rw [hplan] at hmade
  rw [hplan'] at hmade'
  cases result with
  | error fault => cases hmade
  | ok plan =>
    cases result' with
    | error fault => cases hmade'
    | ok plan' =>
      obtain ⟨-, -, -, -, hshared⟩ := (files_isolated (wellFormed_pairTree _ _)
        (truthful_of_tree _) "one" "/"
        [.amendment .addManual]).1 plan after hplan
      obtain ⟨file, hfile, hfile', hpath⟩ := hshared "two" "/" _ (wellFormed_pairTree _ _)
        (truthful_of_tree _) plan' after' hplan' (by decide +kernel) ".github/workflows/a.yml"
        (by decide +kernel) (by decide +kernel) (by decide +kernel)
      exact ⟨plan, plan', file, rfl, rfl, hfile, hfile', hpath⟩

end Plan

end WorkflowRecipes
