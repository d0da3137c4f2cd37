import WorkflowRecipes.Proofs.Amendment.SettledKeys
import WorkflowRecipes.Proofs.Document.Equality

/-!
# Documents with a key renamed

`RenameKey.renamed` is a document in which the old key has given way to the new one, in each mapping
that has the one and not the other, and all else is as it was. Renaming comes to this unless such a
mapping has, beside the old key, its text under a tag: both are renamed then, and of the two entries
one is lost.

Results:
1. `unite_of_pairwise`: keys that differ are not united.
2. `result_renameAt`, `result_renameAt_ne`: with no such key beside it the old key is renamed alone,
   and only then.
3. `visit_eq_renamed_iff`: both for a whole document.
-/

namespace WorkflowRecipes.RenameKey

variable (options : RenameKey)

/-! ## What is meant -/

/-- A key after renaming, where only the plain string is renamed. -/
def plainKeyOf (here : Bool) (key : Value) : Value :=
  if here && key.isKey options.oldKey then .string options.newKey else key

mutual

/-- A value with the old key renamed in the mappings that have it and not the new one. -/
def renamed : Value → Value
  | .mapping entries => .mapping (renamedEntries (options.isRenamedIn entries) entries)
  | .sequence items => .sequence (renamedItems items)
  | value => value

/-- The entries of a mapping; `here` tells whether its key is renamed. -/
def renamedEntries (here : Bool) : List (Value × Value) → List (Value × Value)
  | [] => []
  | (key, value) :: rest => (options.plainKeyOf here key, renamed value) :: renamedEntries here rest

/-- The items of a sequence. -/
def renamedItems : List Value → List Value
  | [] => []
  | item :: rest => renamed item :: renamedItems rest

end

/-- The old key stands twice in a mapping that it is renamed in, plain and under a tag. The mapping
is reached through values of mappings and items of sequences. -/
inductive HasTwin (options : RenameKey) : Value → Prop
  | key {entries : Entries} {key value : Value} : options.isRenamedIn entries = true →
      (key, value) ∈ entries → key.isKey options.oldKey = false →
        key.text? = some options.oldKey → HasTwin options (.mapping entries)
  | entry {entries : Entries} {key value : Value} : (key, value) ∈ entries →
      HasTwin options value → HasTwin options (.mapping entries)
  | item {items : List Value} {item : Value} : item ∈ items →
      HasTwin options item → HasTwin options (.sequence items)

variable {options}

theorem hasTwin_mapping {entries : Entries} : options.HasTwin (.mapping entries) ↔
    (options.isRenamedIn entries = true ∧ ∃ e ∈ entries, e.1.isKey options.oldKey = false ∧
      e.1.text? = some options.oldKey) ∨ ∃ e ∈ entries, options.HasTwin e.2 := by
  constructor
  · intro h
    cases h with
    | key hrenamed hmem hkey htext => exact .inl ⟨hrenamed, _, hmem, hkey, htext⟩
    | entry hmem htwin => exact .inr ⟨_, hmem, htwin⟩
  · rintro (⟨hrenamed, _, hmem, hkey, htext⟩ | ⟨_, hmem, htwin⟩)
    · exact .key hrenamed hmem hkey htext
    · exact .entry hmem htwin

theorem hasTwin_sequence {items : List Value} :
    options.HasTwin (.sequence items) ↔ ∃ item ∈ items, options.HasTwin item := by
  constructor
  · intro h
    cases h with
    | item hmem htwin => exact ⟨_, hmem, htwin⟩
  · rintro ⟨_, hmem, htwin⟩
    exact .item hmem htwin

theorem not_hasTwin_null : ¬ options.HasTwin .null := by
  intro h
  cases h

/-! ## Lists of entries -/

theorem renamedEntries_eq_map (here : Bool) (entries : Entries) :
    options.renamedEntries here entries =
      entries.map fun e => (options.plainKeyOf here e.1, options.renamed e.2) := by
  induction entries with
  | nil => rfl
  | cons entry rest ih => exact congrArg (_ :: ·) ih

theorem renameInEntries_eq_map (here : Bool) (location : Location) (entries : Entries) :
    renameInEntries options here location entries = entries.map fun e =>
      (options.newKeyOf here e.1,
        renameAt options (location.key (options.newKeyOf here e.1).keyText) e.2) := by
  induction entries with
  | nil => rfl
  | cons entry rest ih => exact congrArg (_ :: ·) ih

/-- Entries with keys that differ stay as they are. -/
theorem unite_of_pairwise {α : Type} {entries : List (Value × α)}
    (h : entries.Pairwise fun earlier later => later.1.same earlier.1 = false) :
    unite entries = entries := by
  induction entries using List.reverseRecOn with
  | nil => rfl
  | append_singleton earlier last ih =>
    obtain ⟨key, value⟩ := last
    obtain ⟨hearlier, -, hlast⟩ := List.pairwise_append.mp h
    have hnew : ¬ (earlier.any fun e => key.same e.1) = true := by
      rw [List.any_eq_true]
      rintro ⟨e, he, hsame⟩
      rw [hlast e he _ List.mem_cons_self] at hsame
      cases hsame
    rw [unite_concat, ih hearlier, if_neg hnew]

/-- Only a string is the same as a string. -/
theorem eq_of_same_string {key : Value} {name : String}
    (h : key.same (.string name) = true) : key = .string name := by
  cases key with
  | string text => rw [Value.same_string_iff.mp h]
  | _ => cases h

/-! ## One mapping -/

/-- In a mapping that the old key is renamed in, it stands only as a plain string. -/
def StandsPlain (options : RenameKey) (entries : Entries) : Prop :=
  options.isRenamedIn entries = true →
    ∀ e ∈ entries, e.1.text? = some options.oldKey → e.1.isKey options.oldKey = true

theorem newKeyOf_eq {here : Bool} {key : Value}
    (h : here = true → key.text? = some options.oldKey → key.isKey options.oldKey = true) :
    options.newKeyOf here key = options.plainKeyOf here key := by
  cases here with
  | false => rfl
  | true =>
    unfold newKeyOf plainKeyOf
    cases hkey : key.isKey options.oldKey with
    | true =>
      rw [Value.isKey_iff.mp hkey]
      simp [Value.text?, Value.untagged]
    | false =>
      have hother : key.text? ≠ some options.oldKey := by
        intro htext
        rw [h rfl htext] at hkey
        cases hkey
      simp [hother]

/-- Keys that differ still differ with the old one renamed, for the new one is not among them. -/
theorem pairwise_plainKeyOf {entries : Entries} (hdiffer : Yaml.keysDiffer entries = true)
    (hrenamed : options.isRenamedIn entries = true) :
    entries.Pairwise fun earlier later =>
      (options.plainKeyOf true later.1).same (options.plainKeyOf true earlier.1) = false := by
  have hnew : ∀ e ∈ entries, e.1.isKey options.newKey = false := by
    intro e he
    rw [isRenamedIn, Bool.and_eq_true, Bool.not_eq_true'] at hrenamed
    exact Bool.not_eq_true _ ▸ List.any_eq_false.mp hrenamed.2 e he
  refine (Value.keysDiffer_iff.mp hdiffer).imp_of_mem fun {earlier later} hearlier hlater h => ?_
  rw [← Bool.not_eq_true]
  intro hsame
  unfold plainKeyOf at hsame
  rw [Bool.true_and, Bool.true_and] at hsame
  split at hsame
  · next hold =>
    rw [Value.isKey_iff] at hold
    split at hsame
    · next hold' =>
      rw [hold, Value.isKey_iff.mp hold', Value.same_refl] at h
      cases h
    · rw [Value.same_string, hnew earlier hearlier] at hsame
      cases hsame
  · split at hsame
    · have hkey := hnew later hlater
      rw [eq_of_same_string hsame, Value.isKey_string] at hkey
      cases hkey
    · rw [h] at hsame
      cases hsame

/-- An entry under its key after renaming, with what is done to its value. -/
def plainEntry (options : RenameKey) (here : Bool) (location : Location) (entry : Value × Value) :
    Value × Editing Value :=
  (options.plainKeyOf here entry.1,
    renameAt options (location.key (options.plainKeyOf here entry.1).keyText) entry.2)

/-- A mapping in which the old key stands plain keeps its entries, in order. -/
theorem result_renameAt_mapping {entries : Entries} (hdiffer : Yaml.keysDiffer entries = true)
    (hplain : options.StandsPlain entries) (location : Location) :
    (renameAt options location (.mapping entries)).result = .mapping (entries.map fun e =>
      let entry := options.plainEntry (options.isRenamedIn entries) location e
      (entry.1, entry.2.result)) := by
  have hkeys : renameInEntries options (options.isRenamedIn entries) location entries =
      entries.map (options.plainEntry (options.isRenamedIn entries) location) := by
    rw [renameInEntries_eq_map]
    refine List.map_congr_left fun e he => ?_
    rw [newKeyOf_eq fun hrenamed => hplain hrenamed e he]
    rfl
  have hunited : (if options.isRenamedIn entries then
        unite (entries.map (options.plainEntry (options.isRenamedIn entries) location))
      else entries.map (options.plainEntry (options.isRenamedIn entries) location)) =
      entries.map (options.plainEntry (options.isRenamedIn entries) location) := by
    cases hrenamed : options.isRenamedIn entries with
    | false => rfl
    | true =>
      exact unite_of_pairwise (List.pairwise_map.mpr (pairwise_plainKeyOf hdiffer hrenamed))
  rw [renameAt, Editing.result_bind, hkeys, hunited]
  refine congrArg Value.mapping ?_
  rw [result_inOrder, List.map_map]
  rfl

/-- A key that is renamed has another text then, so the old one is gone from the mapping. -/
theorem text?_newKeyOf_ne (hne : options.oldKey ≠ options.newKey) (key : Value) :
    (options.newKeyOf true key).text? ≠ some options.oldKey := by
  unfold newKeyOf
  split
  · intro htext
    exact hne (Option.some.inj htext).symm
  · next hkeep =>
    intro htext
    exact hkeep (by rw [htext, Bool.true_and, beq_self_eq_true])

/-- A mapping in which a twin stands loses it. -/
theorem result_renameAt_ne_of_twin (hne : options.oldKey ≠ options.newKey) {entries : Entries}
    (hrenamed : options.isRenamedIn entries = true) {key value : Value}
    (hmem : (key, value) ∈ entries) (hkey : key.isKey options.oldKey = false)
    (htext : key.text? = some options.oldKey) (location : Location) :
    (renameAt options location (.mapping entries)).result ≠ options.renamed (.mapping entries) := by
  have hkept : (key, options.renamed value) ∈ options.renamedEntries true entries := by
    rw [renamedEntries_eq_map]
    refine List.mem_map.mpr ⟨_, hmem, ?_⟩
    rw [plainKeyOf, hkey]
    rfl
  intro heq
  rw [renameAt, Editing.result_bind, renamed, hrenamed, if_pos rfl] at heq
  rw [← Value.mapping.inj heq, result_inOrder, List.mem_map] at hkept
  obtain ⟨entry, hentry, hsame⟩ := hkept
  have hinner := mem_of_mem_unite hentry
  rw [renameInEntries_eq_map, List.mem_map] at hinner
  obtain ⟨e, -, rfl⟩ := hinner
  refine text?_newKeyOf_ne hne e.1 ?_
  rw [(Prod.mk.inj hsame).1, htext]

/-! ## All mappings -/

theorem standsPlain_of_not_hasTwin {entries : Entries} (h : ¬ options.HasTwin (.mapping entries)) :
    options.StandsPlain entries := by
  intro hrenamed e he htext
  by_contra hkey
  exact h (.key hrenamed he (Bool.not_eq_true _ ▸ hkey) htext)

mutual

/-- Where the old key has no twin it is renamed and nothing else is changed. -/
theorem result_renameAt (location : Location) : ∀ value : Value, value.WellFormed →
    ¬ options.HasTwin value → (renameAt options location value).result = options.renamed value
  | .mapping entries, hwf, htwin => by
    rw [result_renameAt_mapping hwf.1 (standsPlain_of_not_hasTwin htwin), renamed,
      renamedEntries_eq_map]
    refine congrArg Value.mapping (List.map_congr_left fun e he => ?_)
    exact congrArg (Prod.mk _) (result_renameAt_of_mem _ entries hwf.2
      (fun e he h => htwin (.entry he h)) e he)
  | .sequence items, hwf, htwin =>
    congrArg Value.sequence (result_renameInItems location 0 items hwf
      fun item hitem h => htwin (.item hitem h))
  | .tagged _ _, _, _ | .string _, _, _ | .number _, _, _ | .bool _, _, _ | .null, _, _ => rfl

theorem result_renameAt_of_mem (location : Location) : ∀ entries : List (Value × Value),
    Value.WellFormedEntries entries → (∀ e ∈ entries, ¬ options.HasTwin e.2) → ∀ e ∈ entries,
      (renameAt options location e.2).result = options.renamed e.2
  | [], _, _, _, h => nomatch h
  | (key, value) :: rest, hwf, htwin, e, h => by
    rcases List.mem_cons.mp h with rfl | h
    · exact result_renameAt _ value hwf.2.1 (htwin _ List.mem_cons_self)
    · exact result_renameAt_of_mem location rest hwf.2.2
        (fun e he => htwin e (List.mem_cons_of_mem _ he)) e h

theorem result_renameInItems (location : Location) (i : Nat) : ∀ items : List Value,
    Value.WellFormedItems items → (∀ item ∈ items, ¬ options.HasTwin item) →
      (renameInItems options location i items).result = options.renamedItems items
  | [], _, _ => rfl
  | item :: rest, hwf, htwin =>
    congrArg₂ List.cons (result_renameAt (location.index i) item hwf.1 (htwin _ List.mem_cons_self))
      (result_renameInItems location (i + 1) rest hwf.2
        fun item hitem => htwin item (List.mem_cons_of_mem _ hitem))

end

/-- Items that become what is meant do so one by one. -/
theorem exists_result_renameAt_of_mem {location : Location} {i : Nat} {items : List Value}
    (h : (renameInItems options location i items).result = options.renamedItems items) :
    ∀ item ∈ items, ∃ location, (renameAt options location item).result = options.renamed item := by
  induction items generalizing i with
  | nil => exact fun item hitem => absurd hitem List.not_mem_nil
  | cons first rest ih =>
    obtain ⟨hfirst, hrest⟩ := List.cons.inj h
    intro item hitem
    rcases List.mem_cons.mp hitem with rfl | hitem
    · exact ⟨_, hfirst⟩
    · exact ih hrest item hitem

/-- Where the old key has a twin something else comes out. -/
theorem result_renameAt_ne (hne : options.oldKey ≠ options.newKey) {value : Value}
    (htwin : options.HasTwin value) (hwf : value.WellFormed) (location : Location) :
    (renameAt options location value).result ≠ options.renamed value := by
  induction htwin generalizing location with
  | key hrenamed hmem hkey htext =>
    exact result_renameAt_ne_of_twin hne hrenamed hmem hkey htext location
  | @entry entries key value hmem _ ih =>
    -- A twin in this mapping settles it; without one every value shows in the result.
    by_cases hplain : options.StandsPlain entries
    · intro heq
      rw [result_renameAt_mapping hwf.1 hplain, renamed, renamedEntries_eq_map] at heq
      have hvalues := List.map_inj_left.mp (Value.mapping.inj heq) _ hmem
      exact ih (Value.wellFormedEntries_iff.mp hwf.2 _ hmem).2 _ (Prod.mk.inj hvalues).2
    · unfold StandsPlain at hplain
      push Not at hplain
      obtain ⟨hrenamed, e, he, htext, hkey⟩ := hplain
      exact result_renameAt_ne_of_twin hne hrenamed he (Bool.not_eq_true _ ▸ hkey) htext location
  | item hmem _ ih =>
    intro heq
    obtain ⟨here, hitem⟩ := exists_result_renameAt_of_mem (Value.sequence.inj heq) _ hmem
    exact ih (Value.wellFormedItems_iff.mp hwf _ hmem) here hitem

/-- Renaming a key keeps all entries of a document, with their order and their values, and changes
only that key, where it stands and the new one does not, if and only if it never stands beside its
own text under a tag there. -/
theorem visit_eq_renamed_iff (hne : options.oldKey ≠ options.newKey) {doc : Value}
    (hdoc : doc.WellFormed) :
    (options.visit doc).result = options.renamed doc ↔ ¬ options.HasTwin doc := by
  rw [visit, if_neg hne]
  exact ⟨fun h htwin => result_renameAt_ne hne htwin hdoc _ h, result_renameAt _ doc hdoc⟩

/-- A key `a` that becomes `b`. -/
def sampleRename : RenameKey := ⟨"a", "b", none⟩

/-- A document in which the key is renamed, is left alone beside the new one, and stands under a
tag. -/
def sampleSecrets : Value :=
  .sequence [.mapping [(.string "x", .null), (.string "a", .mapping [(.string "a", .null)])],
    .mapping [(.string "a", .null), (.string "b", .null)],
    .mapping [(.tagged "t" (.string "a"), .null)]]

/-- The key is renamed in two mappings of this document, in its place. -/
theorem visit_sampleSecrets :
    sampleRename.oldKey ≠ sampleRename.newKey ∧ sampleSecrets.WellFormed ∧
      (sampleRename.visit sampleSecrets).result =
        .sequence [.mapping [(.string "x", .null), (.string "b", .mapping [(.string "b", .null)])],
          .mapping [(.string "a", .null), (.string "b", .null)],
          .mapping [(.tagged "t" (.string "a"), .null)]] := by
  have hne : sampleRename.oldKey ≠ sampleRename.newKey := by decide
  have hdoc : sampleSecrets.WellFormed := by
    simp [sampleSecrets, Value.WellFormed, Value.WellFormedItems, Value.WellFormedEntries,
      Yaml.keysDiffer, Value.same]
  refine ⟨hne, hdoc, ((visit_eq_renamed_iff hne hdoc).mpr ?_).trans (by decide)⟩
  simp [sampleSecrets, sampleRename, hasTwin_sequence, hasTwin_mapping, not_hasTwin_null,
    isRenamedIn, Entries.hasKey, Value.isKey, Value.text?, Value.untagged]

/-- Of two entries under a key, once plain and once under a tag, one is lost. -/
theorem visit_loses_entry :
    let doc := Value.mapping [(.string "a", .bool true), (.tagged "t" (.string "a"), .bool false)]
    doc.WellFormed ∧ (sampleRename.visit doc).result = .mapping [(.string "b", .bool false)] := by
  refine ⟨?_, by decide⟩
  simp [Value.WellFormed, Value.WellFormedEntries, Yaml.keysDiffer, Value.same]

end WorkflowRecipes.RenameKey
