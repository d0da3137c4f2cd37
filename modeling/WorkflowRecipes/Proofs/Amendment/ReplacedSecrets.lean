import WorkflowRecipes.Proofs.Amendment.SecretReferences
import WorkflowRecipes.Proofs.Document.Equality
import WorkflowRecipes.Proofs.Document.Strings

/-!
# Documents with a secret replaced

Replacing a secret by another one goes through the strings of a document. In each of them every
reference to the old secret gives way to one to the new secret, and all else is kept.

Results:
1. `replace_of_not_mentions`, `replace_around_other`: strings, and parts of strings, that are kept.
2. `result_visit`, `edits_visit`: the document and the edits.
3. `not_mentions_of_mem_stringsWithin`, `visit_result_visit`: nothing is left for a second visit.
4. `visit_replaced`: all of it, for names of letters, digits and underscores.
-/

namespace WorkflowRecipes

open SecretReference

namespace SecretReference

variable {old new text : String}

theorem not_mentions_replace (hold : IsWord old.toList) (hnew : IsWord new.toList) (hne : old ≠ new)
    (text : String) : ¬ Mentions old.toList (replace old new text).toList := by
  rw [replace, String.toList_ofList]
  exact not_mentions_replaceFrom hold hnew (fun h => hne (String.toList_inj.mp h))
    (written_isReference new) text.toList

theorem replace_of_not_mentions (h : ¬ Mentions old.toList text.toList) (new : String) :
    replace old new text = text := by
  rw [replace, replaceFrom_of_not_mentions h, String.ofList_toList]

/-- A reference to another secret is kept, and the texts around it are taken by themselves. -/
theorem replace_around_other {name ref : String} (hold : IsWord old.toList)
    (hname : IsWord name.toList) (hne : name ≠ old) (href : IsReference name.toList ref.toList)
    (new before after : String) : replace old new (before ++ ref ++ after) =
      replace old new before ++ ref ++ replace old new after := by
  have hlists := replaceFrom_around_other hold hname (fun h => hne (String.toList_inj.mp h)) href
    (written new).toList before.toList after.toList
  refine String.toList_inj.mp ?_
  simp only [replace, String.toList_append, String.toList_ofList, List.append_assoc, hlists]

end SecretReference

namespace ReplaceSecret

variable (options : ReplaceSecret)

/-- A string in which the old secret has given way to the new one. -/
def replaced (text : String) : String := replace options.oldName options.newName text

/-- The edit for a string that changes. -/
def editAt (location : Location) : Edit :=
  ⟨location, arrow ("secrets." ++ options.oldName) ("secrets." ++ options.newName)⟩

theorem result_replaceIn (location : Location) (text : String) :
    (options.replaceIn location text).result = options.replaced text := by
  unfold replaceIn replaced
  dsimp only
  split
  · next h => exact h.symm
  · rfl

theorem edits_replaceIn (location : Location) (text : String) :
    (options.replaceIn location text).edits =
      if options.replaced text = text then [] else [options.editAt location] := by
  unfold replaceIn replaced
  dsimp only
  split <;> rfl

theorem replaceIn_eq_pure {text : String} (h : options.replaced text = text)
    (location : Location) : options.replaceIn location text = pure text :=
  if_pos h

/-- The document changes in its strings only. -/
theorem result_visit (doc : Value) :
    (options.visit doc).result = doc.mapStrings options.replaced :=
  Value.result_overStrings options.result_replaceIn doc

/-- The strings that change have one edit each. -/
theorem edits_visit (doc : Value) : (options.visit doc).edits =
    (doc.stringsWithin.filter fun s => options.replaced s.2 ≠ s.2).map
      fun s => options.editAt s.1 := by
  rw [visit, Value.edits_overStrings]
  generalize doc.stringsWithin = strings
  induction strings with
  | nil => rfl
  | cons s rest ih =>
    rw [List.flatMap_cons, ih, edits_replaceIn, List.filter_cons]
    by_cases h : options.replaced s.2 = s.2 <;> simp [h]

variable {options}

/-- No string is left that mentions the old secret. -/
theorem not_mentions_of_mem_stringsWithin (hold : IsWord options.oldName.toList)
    (hnew : IsWord options.newName.toList) (hne : options.oldName ≠ options.newName) {doc : Value} :
    ∀ s ∈ (options.visit doc).result.stringsWithin,
      ¬ Mentions options.oldName.toList s.2.toList := by
  rw [result_visit, Value.stringsWithin_mapStrings]
  intro s hs
  obtain ⟨before, -, rfl⟩ := List.mem_map.mp hs
  exact not_mentions_replace hold hnew hne before.2

/-- A second visit finds nothing to do. -/
theorem visit_result_visit (hold : IsWord options.oldName.toList)
    (hnew : IsWord options.newName.toList) (hne : options.oldName ≠ options.newName) (doc : Value) :
    options.visit (options.visit doc).result = pure (options.visit doc).result := by
  refine Value.overStrings_eq_pure options.result_replaceIn fun s hs => ?_
  have hfree := not_mentions_of_mem_stringsWithin hold hnew hne s hs
  exact options.replaceIn_eq_pure (replace_of_not_mentions hfree options.newName) s.1

/-- Replacing a secret changes the strings of a document and nothing else: in each of them every
reference to the old secret gives way to one to the new secret, and every other character is kept.
Then no string mentions the old secret, references to other secrets are as they were, each string
that changed has one edit, and a second visit does nothing. -/
theorem visit_replaced (hold : IsSecretName options.oldName) (hnew : IsSecretName options.newName)
    (hne : options.oldName ≠ options.newName) (doc : Value) :
    (options.visit doc).result = doc.mapStrings options.replaced ∧
      (∀ text result : String, result = options.replaced text ↔
        Replaced options.oldName.toList (written options.newName).toList text.toList
          result.toList) ∧
      (∀ s ∈ (options.visit doc).result.stringsWithin,
        ¬ Mentions options.oldName.toList s.2.toList) ∧
      (∀ name ref : String, IsWord name.toList → name ≠ options.oldName →
        IsReference name.toList ref.toList → ∀ before after,
          options.replaced (before ++ ref ++ after) =
            options.replaced before ++ ref ++ options.replaced after) ∧
      (options.visit doc).edits = (doc.stringsWithin.filter fun s => options.replaced s.2 ≠ s.2).map
        (fun s => options.editAt s.1) ∧
      options.visit (options.visit doc).result = pure (options.visit doc).result := by
  refine ⟨options.result_visit doc, fun text result => ?_,
    not_mentions_of_mem_stringsWithin hold.isWord hnew.isWord hne,
    fun name ref hname hother href => replace_around_other hold.isWord hname hother href _,
    options.edits_visit doc, visit_result_visit hold.isWord hnew.isWord hne doc⟩
  rw [replaced_iff hold.isWord, ← String.toList_inj, replaced, replace, String.toList_ofList]

/-- A secret `A` that becomes `B`. -/
def sampleReplacement : ReplaceSecret := ⟨"A", "B", none⟩

/-- A document that mentions the secret twice in one string, under a tag and in a key, and another
secret whose name starts like it. -/
def sampleMentions : Value :=
  .mapping [(.string "$\x7b\x7bsecrets.A\x7d\x7d", .sequence [
      .string "$\x7b\x7b$\x7b\x7bsecrets.A\x7d\x7d$\x7b\x7bsecrets.A \x7d\x7d",
      .string "$\x7b\x7b secrets.AB \x7d\x7d",
      .tagged "t" (.string "$\x7b\x7b\tsecrets.A\x7d\x7d"), .null])]

/-- Two strings of this document change, each with one edit. -/
theorem visit_sampleMentions :
    IsSecretName sampleReplacement.oldName ∧ IsSecretName sampleReplacement.newName ∧
      sampleReplacement.oldName ≠ sampleReplacement.newName ∧
      (sampleReplacement.visit sampleMentions).result =
        .mapping [(.string "$\x7b\x7bsecrets.A\x7d\x7d", .sequence [
          .string "$\x7b\x7b$\x7b\x7b secrets.B \x7d\x7d$\x7b\x7b secrets.B \x7d\x7d",
          .string "$\x7b\x7b secrets.AB \x7d\x7d",
          .tagged "t" (.string "$\x7b\x7b secrets.B \x7d\x7d"), .null])] ∧
      (sampleReplacement.visit sampleMentions).edits.length = 2 := by
  have hold : IsSecretName sampleReplacement.oldName := by decide
  have hnew : IsSecretName sampleReplacement.newName := by decide
  have hne : sampleReplacement.oldName ≠ sampleReplacement.newName := by decide
  obtain ⟨hresult, -, -, -, hedits, -⟩ := visit_replaced hold hnew hne sampleMentions
  exact ⟨hold, hnew, hne, hresult.trans (by decide),
    (congrArg List.length hedits).trans (by decide)⟩

end ReplaceSecret

end WorkflowRecipes
