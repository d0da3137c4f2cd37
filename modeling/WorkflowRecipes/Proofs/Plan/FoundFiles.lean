import WorkflowRecipes.Proofs.Plan.Walking

/-!
# The files that are found

`Discover.files` is told by three things: which paths it lists, that it lists none twice, and their
order. What is assumed of the walk that finds them is only how it goes through one directory; that
the paths are in order as a whole follows.

Results:
1. `Discover.path?_eq_some_iff`: the entries whose paths are listed.
2. `Discover.mem_files_iff`: the paths that are listed.
3. `Discover.files_sorted`: they are in the order of their components.
4. `Discover.files_exact`: the paths, their order, and the walks that find them.
-/

namespace WorkflowRecipes

namespace Discover

/-- A name with the ending `yml` or `yaml`, before which something stands. -/
def IsYamlName (name : String) : Prop :=
  ∃ stem, stem ≠ "" ∧ (name = stem ++ ".yml" ∨ name = stem ++ ".yaml")

/-- The path, from the root of the repository, of what stands at a route below the directory. -/
def pathOf (rest : Route) : String := "/".intercalate (directory :: rest)

theorem any_extension?_iff (name : String) :
    (Path.extension? name).any endings.contains = true ↔ IsYamlName name := by
  have hyml : ∀ stem : String, stem ++ "." ++ "yml" = stem ++ ".yml" :=
    fun stem => String.append_assoc
  have hyaml : ∀ stem : String, stem ++ "." ++ "yaml" = stem ++ ".yaml" :=
    fun stem => String.append_assoc
  constructor
  · intro h
    obtain ⟨ending, hname, hends⟩ := (Option.any_eq_true _ _).mp h
    obtain ⟨-, stem, hstem, rfl⟩ := Path.extension?_eq_some_iff.mp hname
    refine ⟨stem, hstem, ?_⟩
    simp only [endings, List.contains_iff_mem, List.mem_cons, List.not_mem_nil, or_false] at hends
    rcases hends with rfl | rfl
    · exact .inl (hyml stem)
    · exact .inr (hyaml stem)
  · rintro ⟨stem, hstem, rfl | rfl⟩
    · rw [Path.extension?_eq_some_iff.mpr ⟨by decide, stem, hstem, (hyml stem).symm⟩]
      decide
    · rw [Path.extension?_eq_some_iff.mpr ⟨by decide, stem, hstem, (hyaml stem).symm⟩]
      decide

variable {tree : FileTree} {home base rest : Route} {root path : String} {entry : FileEntry}

/-- The entries whose paths are listed are the files with one of the endings. -/
theorem path?_eq_some_iff :
    path? (rest, entry) = some path ↔
      (∃ content mode, entry = .file content mode) ∧
        (∃ before name, rest = before ++ [name] ∧ IsYamlName name) ∧ path = pathOf rest := by
  constructor
  · intro h
    obtain ⟨hfile, hpath⟩ := path?_eq_some h
    refine ⟨hfile, ?_, hpath⟩
    unfold path? at h
    split at h
    · next name _ hlast =>
      obtain ⟨before, hbefore⟩ := List.getLast?_eq_some_iff.mp hlast
      split at h
      · next hending => exact ⟨before, name, hbefore, (any_extension?_iff name).mp hending⟩
      · cases h
    · cases h
  · rintro ⟨⟨content, mode, rfl⟩, ⟨before, name, rfl, hyaml⟩, rfl⟩
    simp [path?, (any_extension?_iff name).mpr hyaml, pathOf]

theorem files_eq_nil (h : tree.isDirectory home (Path.join root directory) = false) :
    files tree home root = [] := by
  unfold files
  dsimp only
  rw [h]
  split <;> rfl

/-- The entries below the directory are looked at, whatever it is: if it is no directory, nothing
stands below it. -/
theorem files_eq (hwf : tree.WellFormed)
    (hbase : tree.resolve home true (Path.join root directory) = .ok base) :
    files tree home root = (tree.below base).filterMap path? := by
  unfold files
  simp only [hbase]
  split
  · rfl
  · next hno =>
    have hnone : tree.below base = [] := by
      refine List.eq_nil_iff_forall_not_mem.mpr ?_
      rintro ⟨rest, entry⟩ hmem
      obtain ⟨hget, hrest⟩ := FileTree.mem_below_iff.mp hmem
      obtain ⟨mode, hmode⟩ := hwf.directory hget hrest
      refine hno ?_
      simp [FileTree.isDirectory, FileTree.entry, hbase, hmode, Except.bind]
    rw [hnone]
    rfl

/-- The paths that are listed are those of the files with one of the endings, at any depth. -/
theorem mem_files_iff (hwf : tree.WellFormed)
    (hbase : tree.resolve home true (Path.join root directory) = .ok base) :
    path ∈ files tree home root ↔
      ∃ before name content mode, IsYamlName name ∧
        tree.get? (base ++ (before ++ [name])) = some (.file content mode) ∧
        path = pathOf (before ++ [name]) := by
  rw [files_eq hwf hbase, List.mem_filterMap]
  simp only [Prod.exists, path?_eq_some_iff, FileTree.mem_below_iff]
  constructor
  · rintro ⟨_, _, ⟨hget, -⟩, ⟨content, mode, rfl⟩, ⟨before, name, rfl, hyaml⟩, hpath⟩
    exact ⟨before, name, content, mode, hyaml, hget, hpath⟩
  · rintro ⟨before, name, content, mode, hyaml, hget, hpath⟩
    exact ⟨_, _, ⟨hget, List.append_ne_nil_of_right_ne_nil _ (List.cons_ne_nil _ _)⟩,
      ⟨content, mode, rfl⟩, ⟨before, name, rfl, hyaml⟩, hpath⟩

theorem components_pathOf (hwf : tree.WellFormed) (hget : tree.get? (base ++ rest) = some entry) :
    Path.components (pathOf rest) = directory :: rest := by
  refine Path.components_intercalate fun word hmem => ?_
  rcases List.mem_cons.mp hmem with rfl | hmem
  · exact ⟨isWord_directory, by decide⟩
  · obtain ⟨hword, hpoint, -⟩ := hwf.isName_of_mem hget hmem
    exact ⟨hword, hpoint⟩

/-- The paths are listed in the order of their components. -/
theorem files_sorted (hwf : tree.WellFormed) (home : Route) (root : String) :
    (files tree home root).Pairwise fun a b =>
      Octets.NamesLt (Path.components a) (Path.components b) := by
  cases hbase : tree.resolve home true (Path.join root directory) with
  | error fault =>
    have hnil : files tree home root = [] := by simp [files, hbase]
    rw [hnil]
    exact List.Pairwise.nil
  | ok base =>
    rw [files_eq hwf hbase]
    refine List.pairwise_filterMap.mpr ((tree.below_sorted base).imp_of_mem ?_)
    rintro ⟨rest, entry⟩ ⟨rest', entry'⟩ hmem hmem' hlt path hpath path' hpath'
    obtain ⟨-, -, rfl⟩ := path?_eq_some_iff.mp hpath
    obtain ⟨-, -, rfl⟩ := path?_eq_some_iff.mp hpath'
    rw [components_pathOf hwf (FileTree.mem_below_iff.mp hmem).1,
      components_pathOf hwf (FileTree.mem_below_iff.mp hmem').1]
    exact Octets.namesLt_cons_cons.mpr (.inr ⟨rfl, hlt⟩)

/-- The files that are found are exactly those below the directory that have one of the endings,
each once and in the order of their components. Every walk that takes the names of a directory in
the order of their octets finds them so, and they do not depend on the order in which the entries
were made. -/
theorem files_exact (hwf : tree.WellFormed) (home : Route) (root : String) :
    (tree.isDirectory home (Path.join root directory) = false → files tree home root = []) ∧
      (∀ base, tree.resolve home true (Path.join root directory) = .ok base →
        (∀ path, path ∈ files tree home root ↔
          ∃ before name content mode, IsYamlName name ∧
            tree.get? (base ++ (before ++ [name])) = some (.file content mode) ∧
            path = pathOf (before ++ [name])) ∧
        (∀ rest content mode, rest ≠ [] → tree.get? (base ++ rest) = some (.file content mode) →
          ∀ followLast,
            tree.resolve home followLast (Path.join root (pathOf rest)) = .ok (base ++ rest)) ∧
        (∃ names walked, tree.Lists base names ∧ tree.Walk base names walked) ∧
        ∀ names walked, tree.Lists base names → tree.Walk base names walked →
          files tree home root = walked.filterMap path?) ∧
      (files tree home root).Nodup ∧
      ((files tree home root).Pairwise fun a b =>
        Octets.NamesLt (Path.components a) (Path.components b)) ∧
      ∀ made made' : List (Route × FileEntry), made.Perm made' → (made.map Prod.fst).Nodup →
        files (tree.putAll made) home root = files (tree.putAll made') home root := by
  refine ⟨files_eq_nil, ?_, files_nodup hwf home root, files_sorted hwf home root, ?_⟩
  · intro base hbase
    refine ⟨fun path => mem_files_iff hwf hbase, ?_, ?_, ?_⟩
    · intro rest content mode hrest hfile
      exact FileTree.resolve_below hwf isWord_directory hbase hrest hfile
    · obtain ⟨walked, hwalk⟩ := tree.exists_walk base
      exact ⟨tree.names base, walked, tree.lists_names base, hwalk⟩
    · intro names walked hlists hwalk
      rw [files_eq hwf hbase, hwalk.eq_below hwf hlists]
  · intro made made' hperm hroutes
    rw [FileTree.putAll_perm hperm hroutes]

/-! ### A file beside a directory of nearly the same name -/

/-- A file in the directory of workflows, a file that has the name of that directory and an ending,
and a link to it. -/
def nestedPlaces : List (Route × FileEntry) :=
  [([".github", "workflows", "x.yml"], .file .empty FileTree.fileMode),
    ([".github", "workflows.yml"], .file .empty FileTree.fileMode),
    ([".github", "z.yml"], .link "workflows.yml")]

def nestedTree : FileTree := FileTree.workflowsTree.putAll nestedPlaces

theorem get?_nestedTree : nestedTree.get? [".github", "workflows", "x.yml"] =
    some (.file .empty FileTree.fileMode) :=
  (FileTree.get?_put_of_ne (by decide) (by decide) _).trans
    ((FileTree.get?_put_of_ne (by decide) (by decide) _).trans
      (FileTree.get?_put_self (by decide) _))

theorem wellFormed_nestedTree : nestedTree.WellFormed := by
  have hgithub : FileTree.workflowsTree.get? [".github"] =
      some (.directory FileTree.directoryMode) :=
    (FileTree.get?_put_of_ne (by decide) (by decide) _).trans (FileTree.get?_put_self (by decide) _)
  have hinner := FileTree.wellFormed_workflowsTree.put [".github", "workflows"] "x.yml"
    FileTree.get?_workflowsTree (Option.isNone_iff_eq_none.mp (by decide +kernel))
    (by decide +kernel) (.file .empty FileTree.fileMode)
  have houter := hinner.put [".github"] "workflows.yml"
    ((FileTree.get?_put_of_ne (by decide) (by decide) _).trans hgithub)
    (Option.isNone_iff_eq_none.mp (by decide +kernel)) (by decide +kernel)
    (.file .empty FileTree.fileMode)
  exact houter.put [".github"] "z.yml"
    (((FileTree.get?_put_of_ne (by decide) (by decide) _).trans
      (FileTree.get?_put_of_ne (by decide) (by decide) _)).trans hgithub)
    (Option.isNone_iff_eq_none.mp (by decide +kernel)) (by decide +kernel) (.link "workflows.yml")

/-- What is in the directory comes before the file beside it, although `/` comes after `.`. The link
is not listed, and in an empty tree nothing is. -/
theorem files_exact_nested :
    files {} [] "." = [] ∧
      nestedTree.resolve [] true (Path.join "." directory) = .ok [".github"] ∧
      files nestedTree [] "." = [".github/workflows/x.yml", ".github/workflows.yml"] ∧
      nestedTree.resolve [] true (Path.join "." ".github/workflows/x.yml") =
        .ok [".github", "workflows", "x.yml"] ∧
      (∃ names walked, nestedTree.Lists [".github"] names ∧
        nestedTree.Walk [".github"] names walked ∧
        walked.filterMap path? = [".github/workflows/x.yml", ".github/workflows.yml"]) ∧
      files (FileTree.workflowsTree.putAll nestedPlaces.reverse) [] "." =
        [".github/workflows/x.yml", ".github/workflows.yml"] := by
  have hresolve : nestedTree.resolve [] true (Path.join "." directory) = .ok [".github"] := by
    decide +kernel
  have hfiles : files nestedTree [] "." = [".github/workflows/x.yml", ".github/workflows.yml"] := by
    decide +kernel
  obtain ⟨hempty, -⟩ := files_exact FileTree.wellFormed_empty [] "."
  obtain ⟨-, hbase, -⟩ := files_exact wellFormed_nestedTree [] "."
  obtain ⟨-, hlead, ⟨names, walked, hlists, hwalk⟩, hfound⟩ := hbase _ hresolve
  obtain ⟨-, -, -, -, hmade⟩ := files_exact FileTree.wellFormed_workflowsTree [] "."
  refine ⟨hempty (by decide +kernel), hresolve, hfiles, ?_, ⟨names, walked, hlists, hwalk, ?_⟩, ?_⟩
  · exact hlead ["workflows", "x.yml"] _ _ (by decide) get?_nestedTree true
  · rw [← hfound names walked hlists hwalk, hfiles]
  · rw [hmade _ _ nestedPlaces.reverse_perm (by decide)]
    exact hfiles

end Discover

end WorkflowRecipes
