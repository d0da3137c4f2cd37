import WorkflowRecipes.Audit.Reference
import WorkflowRecipes.Proofs.Pattern.Stretches
import WorkflowRecipes.Proofs.Text.References
import WorkflowRecipes.Proofs.Text.Versions

/-!
# Refs that can be moved

A reference to a repository is reported if its ref is a branch or looks like a version, and also if
it has no ref. Forty digits of base sixteen are a commit, even if they are all decimal and so look
like a version.

Results:
1. `covers_numbers`, `covers_mutableRef`, `covers_repository`: what the parts of the pattern
   describe.
2. `isMutable_iff`: the references that the pattern describes.
3. `reason?_of_isCommit`, `reason?_of_isMovable`: what is said of an action with a ref.
4. `findings_eq`: each step is looked at by itself.
-/

namespace WorkflowRecipes.Unpinned

open Pattern

variable {before stretch after text : List Char} {action reference version : String}

/-! ## What is meant -/

/-- Decimal digits, at least one. -/
def IsNumber (text : List Char) : Prop := text ≠ [] ∧ ∀ c ∈ text, Text.isDecimalDigit c = true

/-- Numbers with points between them. -/
def IsNumbers (text : List Char) : Prop :=
  ∃ first groups, text = first ++ Version.pointed groups ∧ IsNumber first ∧
    ∀ group ∈ groups, IsNumber group

/-- A ref that can be moved is a branch, or numbers with points between them that may have a `v`
before them. -/
inductive IsMovable (ref : List Char) : Prop
  | branch {name : String} : name ∈ ["main", "master", "HEAD", "latest"] → ref = name.toList →
      IsMovable ref
  | version : IsNumbers ref → IsMovable ref
  | marked {numbers : List Char} : ref = 'v' :: numbers → IsNumbers numbers → IsMovable ref

/-- A ref is a full commit. -/
def IsCommit (ref : String) : Prop := ref.length = 40 ∧ ∀ c ∈ ref.toList, isHex c = true

/-- Part of the name of a repository. -/
def IsPart (text : List Char) : Prop := text ≠ [] ∧ '/' ∉ text ∧ '@' ∉ text

/-- An owner and a repository with one slash between them. -/
def IsRepository (name : List Char) : Prop :=
  ∃ owner repository, name = owner ++ '/' :: repository ∧ IsPart owner ∧ IsPart repository

/-! ## Deciding -/

theorem isNumber_iff : IsNumber text ↔ (!text.isEmpty && text.all Text.isDecimalDigit) = true := by
  simp [IsNumber]

theorem isPart_iff :
    IsPart text ↔ (!text.isEmpty && !text.contains '/' && !text.contains '@') = true := by
  simp [IsPart, and_assoc]

theorem isRunOf_iff {count : Nat} {kind : Char → Bool} {text : String} :
    isRunOf count kind text = true ↔ text.length = count ∧ ∀ c ∈ text.toList, kind c = true := by
  rw [isRunOf, Bool.and_eq_true, beq_iff_eq, List.all_eq_true]

theorem isCommit_iff {ref : String} : IsCommit ref ↔ isRunOf commitLength isHex ref = true :=
  isRunOf_iff.symm

instance (text : List Char) : Decidable (IsNumber text) := decidable_of_iff _ isNumber_iff.symm

instance (text : List Char) : Decidable (IsPart text) := decidable_of_iff _ isPart_iff.symm

instance (ref : String) : Decidable (IsCommit ref) := decidable_of_iff _ isCommit_iff.symm

/-! ## Parts of the pattern -/

theorem covers_digits : (many1 (.one Text.isDecimalDigit)).Covers before stretch after ↔
    IsNumber stretch :=
  covers_many1_one

theorem covers_point : (Pattern.text ".").Covers before stretch after ↔ stretch = ['.'] :=
  covers_text

/-- Rounds of a point and a number. -/
theorem rounds_pointed {n : Nat} :
    (Pattern.text "." ++ many1 (.one Text.isDecimalDigit)).Covers.rounds n before stretch after ↔
      ∃ groups, groups.length = n ∧ stretch = Version.pointed groups ∧
        ∀ group ∈ groups, IsNumber group := by
  induction n generalizing before stretch with
  | zero =>
    constructor
    · rintro rfl
      exact ⟨[], rfl, rfl, nofun⟩
    · rintro ⟨groups, hlength, rfl, -⟩
      rw [List.length_eq_zero_iff] at hlength
      rw [hlength]
      rfl
  | succ n ih =>
    constructor
    · rintro ⟨_, rest, rfl, ⟨point, group, rfl, hpoint, hgroup⟩, hrest⟩
      obtain ⟨groups, rfl, rfl, hgroups⟩ := ih.mp hrest
      rw [covers_point.mp hpoint]
      exact ⟨group :: groups, rfl, rfl,
        List.forall_mem_cons.mpr ⟨covers_digits.mp hgroup, hgroups⟩⟩
    · rintro ⟨groups, hlength, rfl, hgroups⟩
      cases groups with
      | nil => cases hlength
      | cons group groups =>
        obtain ⟨hgroup, hgroups⟩ := List.forall_mem_cons.mp hgroups
        exact ⟨'.' :: group, Version.pointed groups, rfl,
          ⟨['.'], group, rfl, covers_point.mpr rfl, covers_digits.mpr hgroup⟩,
          ih.mpr ⟨groups, Nat.succ.inj hlength, rfl, hgroups⟩⟩

theorem covers_numbers : numbers.Covers before stretch after ↔ IsNumbers stretch := by
  constructor
  · rintro ⟨first, rest, rfl, hfirst, n, -, -, hrest⟩
    obtain ⟨groups, -, rfl, hgroups⟩ := rounds_pointed.mp hrest
    exact ⟨first, groups, rfl, covers_digits.mp hfirst, hgroups⟩
  · rintro ⟨first, groups, rfl, hfirst, hgroups⟩
    exact ⟨first, _, rfl, covers_digits.mpr hfirst, groups.length, Nat.zero_le _, nofun,
      rounds_pointed.mpr ⟨groups, rfl, rfl, hgroups⟩⟩

theorem covers_mutableRef : mutableRef.Covers before stretch after ↔ IsMovable stretch := by
  rw [mutableRef, covers_anyOf]
  constructor
  · rintro (⟨v, rest, rfl, hv, hnumbers⟩ | ⟨pattern, hpattern, hcovers⟩)
    · have hnumbers := covers_numbers.mp hnumbers
      rcases covers_maybe.mp hv with rfl | hv
      · exact .version (by rwa [List.nil_append])
      · rw [covers_text.mp hv]
        exact .marked rfl hnumbers
    · obtain ⟨name, hname, rfl⟩ := List.mem_map.mp hpattern
      exact .branch hname (covers_text.mp hcovers)
  · rintro (⟨hname, rfl⟩ | hnumbers | ⟨rfl, hnumbers⟩)
    · exact .inr ⟨_, List.mem_map_of_mem hname, covers_text.mpr rfl⟩
    · exact .inl ⟨[], stretch, rfl, covers_maybe.mpr (.inl rfl), covers_numbers.mpr hnumbers⟩
    · exact .inl ⟨['v'], _, rfl, covers_maybe.mpr (.inr (covers_text.mpr rfl)),
        covers_numbers.mpr hnumbers⟩

theorem covers_part : (many1 (noneOf "/@")).Covers before stretch after ↔ IsPart stretch := by
  refine covers_many1_one.trans (and_congr_right fun _ => ?_)
  have hchar : ∀ c : Char, (!"/@".toList.contains c) = true ↔ c ≠ '/' ∧ c ≠ '@' := by
    intro c
    simp
  simp only [hchar, forall_and]
  exact and_congr (by grind) (by grind)

theorem covers_repository : repository.Covers before stretch after ↔ IsRepository stretch := by
  constructor
  · rintro ⟨_, repository, rfl, ⟨owner, slash, rfl, howner, hslash⟩, hrepository⟩
    rw [covers_text.mp hslash]
    exact ⟨owner, repository, List.append_assoc _ _ _, covers_part.mp howner,
      covers_part.mp hrepository⟩
  · rintro ⟨owner, repository, rfl, howner, hrepository⟩
    exact ⟨owner ++ ['/'], repository, by simp,
      ⟨owner, ['/'], rfl, covers_part.mpr howner, covers_text.mpr rfl⟩,
      covers_part.mpr hrepository⟩

/-! ## References -/

/-- The references with a ref that can be moved are those of a repository, with a branch or a
version behind the sign, and those without a sign. -/
theorem isMutable_iff : isMutable reference = true ↔ ∃ name rest,
    reference.toList = name ++ rest ∧ IsRepository name ∧
      (rest = [] ∨ ∃ ref, rest = '@' :: ref ∧ IsMovable ref) := by
  rw [isMutable, describes_iff]
  refine exists_congr fun name => exists_congr fun rest => and_congr_right fun _ =>
    and_congr covers_repository (covers_maybe.trans (or_congr_right ?_))
  constructor
  · rintro ⟨sign, ref, rfl, hsign, href⟩
    rw [covers_text.mp hsign]
    exact ⟨ref, rfl, covers_mutableRef.mp href⟩
  · rintro ⟨ref, rfl, href⟩
    exact ⟨['@'], ref, rfl, covers_text.mpr rfl, covers_mutableRef.mpr href⟩

/-- A repository with a ref can be moved if the ref can. -/
theorem isMutable_append (haction : IsRepository action.toList)
    (hversion : IsMovable version.toList) : isMutable (action ++ "@" ++ version) = true :=
  isMutable_iff.mpr ⟨action.toList, '@' :: version.toList, by simp, haction,
    .inr ⟨version.toList, rfl, hversion⟩⟩

/-- Whether an action is remote depends on its name. -/
theorem isRemote_congr {first second : ActionRef} (h : first.name = second.name) :
    first.isRemote = second.isRemote := by
  rw [ActionRef.isRemote, ActionRef.isLocal, ActionRef.isDocker, h]
  rfl

/-- A commit cannot be moved, whichever action it is of. -/
theorem reason?_of_isCommit (h : '@' ∉ action.toList) (hversion : IsCommit version) :
    reason? (action ++ "@" ++ version) = none := by
  have hcommit : isRunOf commitLength isHex version = true := isCommit_iff.mp hversion
  rw [reason?, ActionRef.ofText_append h]
  dsimp only
  split
  · rfl
  · rw [hcommit]
    rfl

/-- A ref that can be moved is reported, unless it is a commit. -/
theorem reason?_of_isMovable (h : '@' ∉ action.toList) (haction : IsRepository action.toList)
    (hremote : (ActionRef.ofText action).isRemote = true) (hversion : IsMovable version.toList)
    (hcommit : ¬ IsCommit version) : reason? (action ++ "@" ++ version) =
      some ("unpinned action: " ++ action ++ " uses mutable ref " ++ version) := by
  have hnot : isRunOf commitLength isHex version = false :=
    Bool.eq_false_iff.mpr fun hrun => hcommit (isCommit_iff.mpr hrun)
  have hname : (ActionRef.ofText action).name = action :=
    (ActionRef.name_ofText_eq_iff h).mpr (.inl rfl)
  have hremote' : ActionRef.isRemote ⟨action, some version⟩ = true := by
    rw [← hremote]
    exact isRemote_congr hname.symm
  rw [reason?, ActionRef.ofText_append h]
  dsimp only
  rw [hremote', hnot, isMutable_append haction hversion]
  rfl

/-! ## Steps -/

/-- What is reported of a step. -/
def finding? (step : Location × Entries) : Option Finding :=
  (step.2.uses?.bind reason?).map fun reason => ⟨step.1.key "uses", reason⟩

theorem findings_eq (doc : Value) : findings doc = doc.steps.filterMap finding? := rfl

end WorkflowRecipes.Unpinned
