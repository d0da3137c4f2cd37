import WorkflowRecipes.Path.Kind
import WorkflowRecipes.Proofs.Path.Names

/-!
# Kinds of files by their components

The globs of workflows and of the update configuration are told by their text. Here they are told by
the components of the paths that fit them.

Results:
1. `describes_anyText_iff`: a star stands for the texts without a slash, and for no others.
2. `isWorkflow_iff`, `isDependabot_iff`: the components of both kinds of files.
-/

namespace WorkflowRecipes

namespace Glob

theorem laterInComponent_iff (k : List Char → Bool) (text : List Char) :
    laterInComponent k text = true ↔
      ∃ passed rest, text = passed ++ rest ∧ '/' ∉ passed ∧ k rest = true := by
  induction text with
  | nil =>
    constructor
    · intro h
      exact ⟨[], [], rfl, List.not_mem_nil, h⟩
    · rintro ⟨passed, rest, htext, -, hk⟩
      obtain ⟨-, rfl⟩ := List.append_eq_nil_iff.mp htext.symm
      exact hk
  | cons c text ih =>
    rw [laterInComponent, Bool.or_eq_true, Bool.and_eq_true, ih, bne_iff_ne]
    constructor
    · rintro (hk | ⟨hc, passed, rest, rfl, hslash, hk⟩)
      · exact ⟨[], c :: text, rfl, List.not_mem_nil, hk⟩
      · refine ⟨c :: passed, rest, rfl, ?_, hk⟩
        simp [Ne.symm hc, hslash]
    · rintro ⟨passed, rest, htext, hslash, hk⟩
      cases passed with
      | nil =>
        obtain rfl : c :: text = rest := htext
        exact .inl hk
      | cons d passed =>
        obtain ⟨rfl, rfl⟩ := List.cons_eq_cons.mp htext
        rw [List.mem_cons, not_or] at hslash
        exact .inr ⟨Ne.symm hslash.1, passed, rest, rfl, hslash.2, hk⟩

/-- A star stands for the texts without a slash. -/
theorem describes_anyText_iff (parts : List GlobPart) (text : List Char) :
    describes (.anyText :: parts) text = true ↔
      ∃ passed rest, text = passed ++ rest ∧ '/' ∉ passed ∧ describes parts rest = true :=
  laterInComponent_iff (describes parts) text

/-- Characters stand for themselves. -/
theorem describes_chars_iff (chars : List Char) (parts : List GlobPart) (text : List Char) :
    describes (chars.map .char ++ parts) text = true ↔
      ∃ rest, text = chars ++ rest ∧ describes parts rest = true := by
  induction chars generalizing text with
  | nil => simp
  | cons c chars ih =>
    cases text with
    | nil => simp [describes]
    | cons d text =>
      have hstep : describes ((c :: chars).map .char ++ parts) (d :: text) =
          (d == c && describes (chars.map .char ++ parts) text) := rfl
      rw [hstep, Bool.and_eq_true, beq_iff_eq, ih]
      constructor
      · rintro ⟨rfl, rest, rfl, h⟩
        exact ⟨rest, rfl, h⟩
      · rintro ⟨rest, htext, h⟩
        obtain ⟨rfl, rfl⟩ := List.cons_eq_cons.mp htext
        exact ⟨rfl, rest, rfl, h⟩

theorem describes_nil_iff (text : List Char) : describes [] text = true ↔ text = [] := by
  simp [describes]

section Fits

variable {glob : String} (path : String)

/-- A glob without marks fits the path that is written like it. -/
theorem fits_chars_iff {name : String} (hparse : parse glob = .ok (name.toList.map .char)) :
    fits glob path = true ↔ Path.normalize path = name := by
  unfold fits
  rw [hparse, ← List.append_nil (name.toList.map GlobPart.char), describes_chars_iff]
  simp only [describes_nil_iff, exists_eq_right, List.append_nil]
  exact String.toList_inj

/-- A glob with one star fits the paths with a text without a slash in its place. -/
theorem fits_star_iff {lead ending : String}
    (hparse : parse glob =
      .ok (lead.toList.map .char ++ .anyText :: ending.toList.map .char)) :
    fits glob path = true ↔
      ∃ stem : String, Path.normalize path = lead ++ stem ++ ending ∧ '/' ∉ stem.toList := by
  unfold fits
  rw [hparse]
  dsimp only
  rw [describes_chars_iff]
  simp only [describes_anyText_iff]
  constructor
  · rintro ⟨_, hpath, stem, rest, rfl, hslash, hending⟩
    rw [← List.append_nil (ending.toList.map GlobPart.char), describes_chars_iff] at hending
    obtain ⟨rest, rfl, hrest⟩ := hending
    obtain rfl := (describes_nil_iff rest).mp hrest
    refine ⟨String.ofList stem, ?_, by simpa using hslash⟩
    rw [← String.toList_inj, hpath]
    simp
  · rintro ⟨stem, hpath, hslash⟩
    refine ⟨stem.toList ++ ending.toList, by simp [hpath], stem.toList, ending.toList, rfl,
      hslash, ?_⟩
    rw [← List.append_nil (ending.toList.map GlobPart.char), describes_chars_iff]
    exact ⟨[], (List.append_nil _).symm, rfl⟩

end Fits

end Glob

namespace Path

/-! ## Components -/

theorem components_of_rooted {path : String} (h : startsWith path "/" = true) :
    ∃ rest, components path = "/" :: rest :=
  ⟨_, by simp only [components, h, if_true, List.singleton_append]; rfl⟩

/-- The components of a path that does not start at the root are names. -/
theorem isWord_of_mem_components {path component : String} (hroot : startsWith path "/" = false)
    (h : component ∈ components path) : IsWord component := by
  unfold components at h
  simp only [hroot, Bool.false_eq_true, if_false] at h
  rcases List.mem_append.mp h with hlead | hname
  · split at hlead
    · obtain rfl := List.mem_singleton.mp hlead
      decide
    · exact absurd hlead List.not_mem_nil
  · obtain ⟨hmem, hkept⟩ := List.mem_filter.mp hname
    obtain ⟨piece, hpiece, rfl⟩ := List.mem_map.mp hmem
    rw [Bool.and_eq_true, bne_iff_ne] at hkept
    have hslash : '/' ∉ piece := Text.not_mem_of_mem_pieces hpiece
    exact ⟨hkept.1, by simpa using hslash⟩

/-- A path is written like some names exactly if these are its components. -/
theorem normalize_eq_iff {path : String} {words : List String} (hne : words ≠ [])
    (hwords : ∀ word ∈ words, IsWord word) :
    normalize path = "/".intercalate words ↔ components path = words := by
  constructor
  · intro h
    cases hroot : startsWith path "/" with
    | true =>
      -- The normal form of a rooted path starts with a slash, and no name does.
      obtain ⟨rest, hrest⟩ := components_of_rooted hroot
      have hrooted : isRooted (normalize path) = true := by
        rw [isRooted_iff, normalize, hrest]
        cases rest with
        | nil => rfl
        | cons word rest => simp [String.intercalate_cons_of_ne_nil]
      rw [h, (intercalate_words hwords hne).1] at hrooted
      cases hrooted
    | false =>
      have hown : ∀ component ∈ components path, IsWord component :=
        fun component hmem => isWord_of_mem_components hroot hmem
      rw [← split_intercalate hwords, ← h, normalize, split_intercalate hown]
  · rintro rfl
    rfl

/-! ## Workflows and the update configuration -/

theorem isWord_append {stem ending : String} (hstem : '/' ∉ stem.toList) (hending : IsWord ending) :
    IsWord (stem ++ ending) := by
  refine ⟨?_, ?_⟩
  · intro h
    exact hending.1 (String.append_eq_empty_iff.mp h).2
  · rw [String.toList_append, List.mem_append, not_or]
    exact ⟨hstem, hending.2⟩

/-- A glob for the files of a directory whose names end in a given way fits the paths whose
components are that directory and such a name. -/
theorem fits_directory_iff {glob : String} {directory : List String} {ending : String}
    (hparse : Glob.parse glob = .ok
      (("/".intercalate directory ++ "/").toList.map .char ++
        .anyText :: ending.toList.map .char))
    (hne : directory ≠ []) (hdirectory : ∀ name ∈ directory, IsWord name) (hending : IsWord ending)
    (path : String) :
    Glob.fits glob path = true ↔ ∃ stem, components path = directory ++ [stem ++ ending] := by
  rw [Glob.fits_star_iff path hparse]
  have hwritten : ∀ stem, "/".intercalate directory ++ "/" ++ stem ++ ending =
      "/".intercalate (directory ++ [stem ++ ending]) := by
    intro stem
    rw [String.intercalate_append_of_ne_nil hne (List.cons_ne_nil _ _), String.intercalate_singleton,
      String.append_assoc]
  have hwords : ∀ stem : String, '/' ∉ stem.toList →
      ∀ word ∈ directory ++ [stem ++ ending], IsWord word := by
    intro stem hstem word hword
    rcases List.mem_append.mp hword with hword | hword
    · exact hdirectory word hword
    · obtain rfl := List.mem_singleton.mp hword
      exact isWord_append hstem hending
  constructor
  · rintro ⟨stem, hpath, hstem⟩
    rw [hwritten] at hpath
    exact ⟨stem, (normalize_eq_iff (by simp) (hwords stem hstem)).mp hpath⟩
  · rintro ⟨stem, hpath⟩
    have hroot : startsWith path "/" = false := by
      rw [Bool.eq_false_iff]
      intro hroot
      obtain ⟨rest, hrest⟩ := components_of_rooted hroot
      obtain ⟨first, names, rfl⟩ := List.exists_cons_of_ne_nil hne
      obtain ⟨rfl, -⟩ := List.cons_eq_cons.mp (hrest.symm.trans hpath)
      exact (hdirectory "/" List.mem_cons_self).2 (by decide)
    have hstem : '/' ∉ stem.toList := by
      have hname : stem ++ ending ∈ components path := by simp [hpath]
      have hslash := (isWord_of_mem_components hroot hname).2
      rw [String.toList_append, List.mem_append, not_or] at hslash
      exact hslash.1
    refine ⟨stem, ?_, hstem⟩
    rw [hwritten]
    exact (normalize_eq_iff (by simp) (hwords stem hstem)).mpr hpath

/-- The workflows are the files in the directory of workflows whose names end in `.yml` or
`.yaml`. -/
theorem isWorkflow_iff (path : String) :
    isWorkflow path = true ↔
      ∃ stem, components path = [".github", "workflows", stem ++ ".yml"] ∨
        components path = [".github", "workflows", stem ++ ".yaml"] := by
  have hdirectory : ∀ name ∈ [".github", "workflows"], IsWord name := by decide
  have hyml : Glob.fits ".github/workflows/*.yml" path = true ↔
      ∃ stem, components path = [".github", "workflows"] ++ [stem ++ ".yml"] :=
    fits_directory_iff rfl (by decide) hdirectory (by decide) path
  have hyaml : Glob.fits ".github/workflows/*.yaml" path = true ↔
      ∃ stem, components path = [".github", "workflows"] ++ [stem ++ ".yaml"] :=
    fits_directory_iff rfl (by decide) hdirectory (by decide) path
  simp only [List.cons_append, List.nil_append] at hyml hyaml
  rw [exists_or, ← hyml, ← hyaml]
  simp [isWorkflow, fitsAny, workflowGlobs]

/-- The update configuration is one of two files. -/
theorem isDependabot_iff (path : String) :
    isDependabot path = true ↔
      components path = [".github", "dependabot.yml"] ∨
        components path = [".github", "dependabot.yaml"] := by
  have hyml : Glob.fits ".github/dependabot.yml" path = true ↔
      normalize path = "/".intercalate [".github", "dependabot.yml"] :=
    Glob.fits_chars_iff path rfl
  have hyaml : Glob.fits ".github/dependabot.yaml" path = true ↔
      normalize path = "/".intercalate [".github", "dependabot.yaml"] :=
    Glob.fits_chars_iff path rfl
  rw [normalize_eq_iff (by decide) (by decide)] at hyml hyaml
  rw [← hyml, ← hyaml]
  simp [isDependabot, fitsAny, dependabotGlobs]

/-- No file is both. -/
theorem not_isDependabot_of_isWorkflow {path : String} (h : isWorkflow path = true) :
    isDependabot path = false := by
  rw [Bool.eq_false_iff]
  intro hdependabot
  obtain ⟨stem, hworkflow⟩ := (isWorkflow_iff path).mp h
  have hthree : (components path).length = 3 := by
    rcases hworkflow with h | h <;> rw [h] <;> rfl
  have htwo : (components path).length = 2 := by
    rcases (isDependabot_iff path).mp hdependabot with h | h <;> rw [h] <;> rfl
  omega

end Path

end WorkflowRecipes
