import Mathlib.Data.List.Induction
import WorkflowRecipes.Plan.Discover
import WorkflowRecipes.Proofs.FileTree.Extension
import WorkflowRecipes.Proofs.Path.Names

/-!
# Found files

In a well-formed tree every path that `Discover.files` lists leads to a file, and two of them to
different files. No links are met below the directory whose files are found, so the last name is
that of the file itself.

Results:
1. `Discover.files_lead`: a path that is found leads to a file, whether or not a link in the last
   place is followed.
2. `Discover.files_nodup`: no path is found twice.
3. `Discover.route_inj`: paths that are found and lead to the same route are equal.
-/

namespace WorkflowRecipes

namespace FileTree

/-- Every entry has a name, and stands in a directory. -/
structure WellFormed (tree : FileTree) : Prop where
  isName : ∀ route name entry, tree.get? (route ++ [name]) = some entry →
    Path.IsWord name ∧ name ≠ "." ∧ name ≠ ".." ∧ name.utf8ByteSize ≤ longestName
  parent : ∀ route name entry, tree.get? (route ++ [name]) = some entry →
    ∃ mode, tree.get? route = some (.directory mode)

section WellFormed

variable {tree : FileTree} {base rest : Route} {entry : FileEntry}

/-- What stands on the way to an entry is a directory. -/
theorem WellFormed.directory (hwf : tree.WellFormed) (h : tree.get? (base ++ rest) = some entry)
    (hne : rest ≠ []) : ∃ mode, tree.get? base = some (.directory mode) := by
  induction rest using List.reverseRecOn generalizing entry with
  | nil => exact absurd rfl hne
  | append_singleton before name ih =>
    rw [← List.append_assoc] at h
    obtain ⟨mode, hmode⟩ := hwf.parent _ _ _ h
    by_cases hb : before = []
    · subst hb
      rw [List.append_nil] at hmode
      exact ⟨mode, hmode⟩
    · exact ih hmode hb

theorem WellFormed.isName_of_mem (hwf : tree.WellFormed)
    (h : tree.get? (base ++ rest) = some entry) {name : String} (hmem : name ∈ rest) :
    Path.IsWord name ∧ name ≠ "." ∧ name ≠ ".." ∧ name.utf8ByteSize ≤ longestName := by
  obtain ⟨before, after, rfl⟩ := List.append_of_mem hmem
  have hsplit : base ++ (before ++ name :: after) = (base ++ before ++ [name]) ++ after := by simp
  rw [hsplit] at h
  by_cases ha : after = []
  · subst ha
    rw [List.append_nil] at h
    exact hwf.isName _ _ _ h
  · obtain ⟨mode, hmode⟩ := hwf.directory h ha
    exact hwf.isName _ _ _ hmode

/-- The names below a directory to a file lead through directories only. -/
theorem WellFormed.leads_below (hwf : tree.WellFormed) {content : ByteArray} {mode : Nat}
    (followLast : Bool) (links : Nat)
    (h : tree.get? (base ++ rest) = some (.file content mode)) :
    tree.Leads followLast (base ++ rest) links base rest := by
  induction rest generalizing base with
  | nil =>
    rw [List.append_nil]
    exact .done
  | cons name rest ih =>
    obtain ⟨mode', hbase⟩ := hwf.directory h (List.cons_ne_nil _ _)
    obtain ⟨-, hname⟩ := hwf.isName_of_mem h List.mem_cons_self
    rw [List.append_cons] at h ⊢
    refine .down hbase hname (fun target hlink => ?_) (ih h)
    by_cases hr : rest = []
    · subst hr
      rw [List.append_nil, hlink] at h
      cases h
    · obtain ⟨mode'', hnext⟩ := hwf.directory h hr
      rw [hlink] at hnext
      cases hnext

end WellFormed

/-! ## Building well-formed trees -/

theorem wellFormed_empty : ({} : FileTree).WellFormed := by
  have hnone : ∀ (route : Route) (name : String),
      ({} : FileTree).get? (route ++ [name]) = none := by
    intro route name
    simp [get?]
  constructor
  · intro route name entry h
    rw [hnone] at h
    cases h
  · intro route name entry h
    rw [hnone] at h
    cases h

/-- An entry that is added to a directory leaves a tree well-formed. -/
theorem WellFormed.put {tree : FileTree} (hwf : tree.WellFormed) (route : Route) (name : String)
    {mode : Nat} (hdirectory : tree.get? route = some (.directory mode))
    (hnone : tree.get? (route ++ [name]) = none)
    (hname : Path.IsWord name ∧ name ≠ "." ∧ name ≠ ".." ∧ name.utf8ByteSize ≤ longestName)
    (entry : FileEntry) : (tree.put (route ++ [name]) entry).WellFormed := by
  have hne : route ++ [name] ≠ [] := List.append_ne_nil_of_right_ne_nil _ (List.cons_ne_nil _ _)
  constructor
  · intro route' name' entry' h
    by_cases heq : route ++ [name] = route' ++ [name']
    · obtain ⟨-, hlast⟩ := List.append_inj' heq rfl
      cases hlast
      exact hname
    · rw [get?_put_of_ne hne heq] at h
      exact hwf.isName _ _ _ h
  · intro route' name' entry' h
    by_cases heq : route ++ [name] = route' ++ [name']
    · obtain ⟨rfl, -⟩ := List.append_inj' heq rfl
      refine ⟨mode, ?_⟩
      rw [get?_put_of_ne hne (by simp), hdirectory]
    · rw [get?_put_of_ne hne heq] at h
      obtain ⟨mode', hparent⟩ := hwf.parent _ _ _ h
      refine ⟨mode', ?_⟩
      have hother : route ++ [name] ≠ route' := by
        rintro rfl
        rw [hnone] at hparent
        cases hparent
      rw [get?_put_of_ne hne hother, hparent]

/-- The directory of workflows in an empty tree. -/
def workflowsTree : FileTree :=
  (({} : FileTree).put [".github"] (.directory directoryMode)).put [".github", "workflows"]
    (.directory directoryMode)

theorem get?_workflowsTree :
    workflowsTree.get? [".github", "workflows"] = some (.directory directoryMode) :=
  get?_put_self (by decide) _

theorem wellFormed_workflowsTree : workflowsTree.WellFormed := by
  have hgithub := wellFormed_empty.put [] ".github" (get?_nil _)
    (Option.isNone_iff_eq_none.mp (by decide +kernel)) (by decide +kernel)
    (.directory directoryMode)
  exact hgithub.put [".github"] "workflows" (get?_put_self (by decide) _)
    (Option.isNone_iff_eq_none.mp (by decide +kernel)) (by decide +kernel)
    (.directory directoryMode)

/-- The path of a file below a directory leads to the file. -/
theorem resolve_below {tree : FileTree} (hwf : tree.WellFormed) {home base rest : Route}
    {root name : String} {content : ByteArray} {mode : Nat} (hname : Path.IsWord name)
    (hbase : tree.resolve home true (Path.join root name) = .ok base) (hrest : rest ≠ [])
    (hfile : tree.get? (base ++ rest) = some (.file content mode)) (followLast : Bool) :
    tree.resolve home followLast (Path.join root ("/".intercalate (name :: rest))) =
      .ok (base ++ rest) := by
  have hwords : ∀ word ∈ name :: rest, Path.IsWord word := by
    intro word hmem
    rcases List.mem_cons.mp hmem with rfl | hmem
    · exact hname
    · exact (hwf.isName_of_mem hfile hmem).1
  obtain ⟨hrel, hne, hends⟩ := Path.intercalate_words hwords (List.cons_ne_nil _ _)
  have hone : "/".intercalate [name] = name := String.intercalate_singleton
  obtain ⟨hrel', hne', hends'⟩ :=
    Path.intercalate_words (fun word hmem => hwords word (List.mem_cons.mpr
      (.inl (List.mem_singleton.mp hmem)))) (List.cons_ne_nil name [])
  rw [hone] at hrel' hne' hends'
  have hnames : Path.names (Path.join root name) = Path.split root ++ [name] := by
    rw [Path.names_eq_split (by rw [Path.endsInSlash_join hrel' hne', hends']),
      Path.split_join hrel', Path.split_word hname]
  have hnames' : Path.names (Path.join root ("/".intercalate (name :: rest))) =
      Path.split root ++ [name] ++ rest := by
    rw [Path.names_eq_split (by rw [Path.endsInSlash_join hrel hne, hends]),
      Path.split_join hrel, Path.split_intercalate hwords]
    simp
  rw [resolve_eq_ok_iff, Path.isRooted_join hrel', hnames] at hbase
  rw [resolve_eq_ok_iff, Path.isRooted_join hrel, hnames']
  exact ⟨Path.join_ne_empty hne,
    hbase.2.append hrest fun links => hwf.leads_below followLast links hfile⟩

/-- The entries below a route are those that the tree holds there. -/
theorem mem_below {tree : FileTree} {base rest : Route} {entry : FileEntry}
    (h : (rest, entry) ∈ tree.below base) :
    tree.get? (base ++ rest) = some entry ∧ rest ≠ [] := by
  unfold below at h
  obtain ⟨⟨route, found⟩, hmem, hfound⟩ := List.mem_filterMap.mp h
  dsimp only at hfound
  split at hfound
  · next hbelow =>
    simp only [Option.some.injEq, Prod.mk.injEq] at hfound
    obtain ⟨rfl, rfl⟩ := hfound
    simp only [Bool.and_eq_true, List.isPrefixOf_iff_prefix, bne_iff_ne] at hbelow
    obtain ⟨⟨rest, rfl⟩, hne⟩ := hbelow
    rw [List.drop_left]
    have hrest : rest ≠ [] := by
      rintro rfl
      simp at hne
    have hget := Std.ExtTreeMap.mem_toList_iff_getElem?_eq_some.mp hmem
    exact ⟨by simp [get?, hrest, hget], hrest⟩
  · cases hfound

/-- What holds of any two routes in the order of a tree holds of the ways to any two entries below
a route, in the same order. -/
theorem pairwise_below {tree : FileTree} {base : Route} {R : Route → Route → Prop}
    (h : tree.entries.toList.Pairwise fun a b =>
      ∀ rest rest', a.1 = base ++ rest → b.1 = base ++ rest' → R rest rest') :
    (tree.below base).Pairwise fun a b => R a.1 b.1 := by
  unfold below
  rw [List.pairwise_filterMap]
  refine h.imp ?_
  rintro ⟨route, entry⟩ ⟨route', entry'⟩ hR ⟨rest, e⟩ h ⟨rest', e'⟩ h'
  dsimp only at h h' hR ⊢
  split at h
  · next hbelow =>
    split at h'
    · next hbelow' =>
      simp only [Option.some.injEq, Prod.mk.injEq] at h h'
      simp only [Bool.and_eq_true, List.isPrefixOf_iff_prefix] at hbelow hbelow'
      obtain ⟨⟨a, rfl⟩, -⟩ := hbelow
      obtain ⟨⟨b, rfl⟩, -⟩ := hbelow'
      rw [List.drop_left] at h h'
      exact hR _ _ (congrArg (base ++ ·) h.1) (congrArg (base ++ ·) h'.1)
    · cases h'
  · cases h

/-- No two entries below a route have the same way to them. -/
theorem below_pairwise (tree : FileTree) (base : Route) :
    (tree.below base).Pairwise fun a b => a.1 ≠ b.1 := by
  refine pairwise_below (Std.ExtTreeMap.distinct_keys_toList.imp ?_)
  rintro ⟨route, entry⟩ ⟨route', entry'⟩ hne rest rest' h h' hrest
  refine hne (Std.LawfulEqOrd.compare_eq_iff_eq.mpr ?_)
  rw [h, h', hrest]

end FileTree

namespace Discover

variable {tree : FileTree} {home : Route} {root path path' : String}

theorem isWord_directory : Path.IsWord directory := by
  unfold Path.IsWord directory
  decide

theorem path?_eq_some {rest : Route} {entry : FileEntry} (h : path? (rest, entry) = some path) :
    (∃ content mode, entry = .file content mode) ∧ path = "/".intercalate (directory :: rest) := by
  unfold path? at h
  split at h
  · next content mode _ hentry _ =>
    split at h
    · cases h
      exact ⟨⟨content, mode, hentry⟩, rfl⟩
    · cases h
  · cases h

/-- A path that is found is written from the way to a file. -/
theorem mem_files (h : path ∈ files tree home root) :
    ∃ base rest content mode,
      tree.resolve home true (Path.join root directory) = .ok base ∧
        (rest, .file content mode) ∈ tree.below base ∧
        path = "/".intercalate (directory :: rest) := by
  unfold files at h
  cases hr : tree.resolve home true (Path.join root directory) with
  | error fault => simp [hr] at h
  | ok base =>
    simp only [hr] at h
    split at h
    · obtain ⟨⟨rest, entry⟩, hmem, hpath⟩ := List.mem_filterMap.mp h
      obtain ⟨⟨content, mode, rfl⟩, rfl⟩ := path?_eq_some hpath
      exact ⟨base, rest, content, mode, rfl, hmem, rfl⟩
    · cases h

/-- A path that is found leads to a file, which is no link. -/
theorem files_lead (hwf : tree.WellFormed) (h : path ∈ files tree home root) :
    ∃ route content mode,
      (∀ followLast, tree.resolve home followLast (Path.join root path) = .ok route) ∧
        tree.get? route = some (.file content mode) := by
  obtain ⟨base, rest, content, mode, hbase, hmem, rfl⟩ := mem_files h
  obtain ⟨hfile, hrest⟩ := FileTree.mem_below hmem
  exact ⟨base ++ rest, content, mode,
    FileTree.resolve_below hwf isWord_directory hbase hrest hfile, hfile⟩

/-- Paths that are found are determined by where they lead. -/
theorem route_inj (hwf : tree.WellFormed) (h : path ∈ files tree home root)
    (h' : path' ∈ files tree home root) {route : Route}
    (hr : tree.resolve home true (Path.join root path) = .ok route)
    (hr' : tree.resolve home true (Path.join root path') = .ok route) : path = path' := by
  obtain ⟨base, rest, content, mode, hbase, hmem, rfl⟩ := mem_files h
  obtain ⟨base', rest', content', mode', hbase', hmem', rfl⟩ := mem_files h'
  rw [hbase] at hbase'
  cases hbase'
  obtain ⟨hfile, hrest⟩ := FileTree.mem_below hmem
  obtain ⟨hfile', hrest'⟩ := FileTree.mem_below hmem'
  rw [FileTree.resolve_below hwf isWord_directory hbase hrest hfile] at hr
  rw [FileTree.resolve_below hwf isWord_directory hbase hrest' hfile'] at hr'
  have hroutes : base ++ rest = base ++ rest' := Except.ok.inj (hr.trans hr'.symm)
  rw [List.append_cancel_left hroutes]

/-- No path is found twice. -/
theorem files_nodup (hwf : tree.WellFormed) (home : Route) (root : String) :
    (files tree home root).Nodup := by
  unfold files
  cases hbase : tree.resolve home true (Path.join root directory) with
  | error fault =>
    simp only [hbase]
    exact List.nodup_nil
  | ok base =>
    simp only [hbase]
    split
    · rw [List.nodup_iff_pairwise_ne, List.pairwise_filterMap]
      refine (tree.below_pairwise base).imp_of_mem ?_
      rintro ⟨rest, entry⟩ ⟨rest', entry'⟩ hmem hmem' hne first hp second hp' rfl
      refine hne ?_
      obtain ⟨hfile, hrest⟩ := FileTree.mem_below hmem
      obtain ⟨hfile', hrest'⟩ := FileTree.mem_below hmem'
      obtain ⟨⟨content, mode, rfl⟩, rfl⟩ := path?_eq_some hp
      obtain ⟨⟨content', mode', rfl⟩, hpath⟩ := path?_eq_some hp'
      have hr := FileTree.resolve_below hwf isWord_directory hbase hrest hfile true
      have hr' := FileTree.resolve_below hwf isWord_directory hbase hrest' hfile' true
      rw [hpath, hr'] at hr
      exact (List.append_cancel_left (Except.ok.inj hr)).symm
    · exact List.nodup_nil

end Discover

end WorkflowRecipes
