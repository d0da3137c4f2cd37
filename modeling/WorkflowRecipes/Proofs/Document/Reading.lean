import WorkflowRecipes.Proofs.Document.Sameness

/-!
# Documents that are read

Reading refuses mappings with two keys that are the same, at any depth.

Results:
1. `wellFormed_of_ofTree?`: what a tree means is well-formed.
2. `Yaml.wellFormed_of_documents?`: so are the documents of a text.
-/

namespace WorkflowRecipes

namespace Yaml

theorem wellFormed_of_scalarOfKind? {kind : String} {text : List Char} {value : Value}
    (h : scalarOfKind? kind text = some value) : value.WellFormed := by
  unfold scalarOfKind? at h
  split at h
  · obtain ⟨b, -, rfl⟩ := Option.map_eq_some_iff.mp h
    trivial
  · obtain ⟨i, -, h⟩ := Option.bind_eq_some_iff.mp h
    split at h
    · cases h
      trivial
    · cases h
  · obtain ⟨x, -, rfl⟩ := Option.map_eq_some_iff.mp h
    trivial
  · split at h
    · cases h
      trivial
    · cases h
  · cases h
    trivial

theorem wellFormed_of_plain? {text : List Char} {value : Value}
    (h : Scalar.plain? text = some value) : value.WellFormed := by
  unfold Scalar.plain? at h
  split at h
  · cases h
    trivial
  · split at h
    · cases h
      trivial
    · dsimp only at h
      obtain ⟨number?, -, rfl⟩ := Option.map_eq_some_iff.mp h
      cases number? <;> trivial

/-- A scalar holds no mapping. -/
theorem wellFormed_of_scalar? {tag : Option (List Char)} {text : List Char} {style : Style}
    {value : Value} (h : scalar? tag text style = some value) : value.WellFormed := by
  have hbare : ∀ {value : Value}, (if style = .plain then Scalar.plain? text
      else some (.string (String.ofList text))) = some value → value.WellFormed := by
    intro value h
    split at h
    · exact wellFormed_of_plain? h
    · cases h
      trivial
  unfold scalar? at h
  dsimp only at h
  split at h
  · exact hbare h
  · split at h
    · split at h
      · cases h
      · obtain ⟨bare, hvalue, rfl⟩ := Option.map_eq_some_iff.mp h
        exact (hbare hvalue : bare.WellFormed)
    · split at h
      · exact wellFormed_of_scalarOfKind? h
      · cases h
        trivial

theorem wellFormed_of_collection? {tag : Option (List Char)} {value result : Value}
    (hvalue : value.WellFormed) (h : collection? tag value = some result) : result.WellFormed := by
  unfold collection? at h
  split at h
  · cases h
    exact hvalue
  · split at h
    · cases h
    · cases h
      exact hvalue

end Yaml

namespace Value

open Yaml

mutual

/-- What a tree means is well-formed. -/
theorem wellFormed_of_ofTree? : ∀ {tree : Tree} {value : Value}, ofTree? tree = some value →
    value.WellFormed
  | .alias target, _, _ => nomatch target
  | .scalar _ _ _, _, h => by
    rw [ofTree?] at h
    exact wellFormed_of_scalar? h
  | .sequence _ items, _, h => by
    rw [ofTree?] at h
    obtain ⟨values, hvalues, h⟩ := Option.bind_eq_some_iff.mp h
    have hsequence : (Value.sequence values).WellFormed := wellFormed_of_ofItems? items hvalues
    exact wellFormed_of_collection? hsequence h
  | .mapping _ entries, _, h => by
    rw [ofTree?] at h
    obtain ⟨values, hvalues, h⟩ := Option.bind_eq_some_iff.mp h
    split at h
    · next hdiffer =>
      have hmapping : (Value.mapping values).WellFormed :=
        ⟨hdiffer, wellFormed_of_ofEntries? entries hvalues⟩
      exact wellFormed_of_collection? hmapping h
    · cases h

theorem wellFormed_of_ofItems? : ∀ (items : List Tree) {values : List Value},
    ofItems? items = some values → WellFormedItems values
  | [], _, h => by
    cases h
    trivial
  | item :: rest, _, h => by
    rw [ofItems?] at h
    obtain ⟨first, hfirst, h⟩ := Option.bind_eq_some_iff.mp h
    obtain ⟨others, hothers, rfl⟩ := Option.map_eq_some_iff.mp h
    exact ⟨@wellFormed_of_ofTree? item _ hfirst, wellFormed_of_ofItems? rest hothers⟩

theorem wellFormed_of_ofEntries? : ∀ (entries : List (Tree × Tree)) {values : Entries},
    ofEntries? entries = some values → WellFormedEntries values
  | [], _, h => by
    cases h
    trivial
  | (key, value) :: rest, _, h => by
    rw [ofEntries?] at h
    obtain ⟨key', hkey, h⟩ := Option.bind_eq_some_iff.mp h
    obtain ⟨value', hvalue, h⟩ := Option.bind_eq_some_iff.mp h
    obtain ⟨others, hothers, rfl⟩ := Option.map_eq_some_iff.mp h
    exact ⟨@wellFormed_of_ofTree? key _ hkey, @wellFormed_of_ofTree? value _ hvalue,
      wellFormed_of_ofEntries? rest hothers⟩

end

theorem mapM_ofTree? (trees : List Tree) : trees.mapM ofTree? = ofItems? trees := by
  induction trees with
  | nil => rfl
  | cons tree rest ih =>
    rw [List.mapM_cons, ih, ofItems?]
    cases ofTree? tree with
    | none => rfl
    | some value => cases ofItems? rest <;> rfl

end Value

/-- The documents of a text are well-formed. -/
theorem Yaml.wellFormed_of_documents? {text : String} {docs : List Value}
    (h : documents? text = some docs) : Value.WellFormedItems docs := by
  unfold documents? at h
  obtain ⟨trees, -, h⟩ := Option.bind_eq_some_iff.mp h
  rw [Value.mapM_ofTree?] at h
  exact Value.wellFormed_of_ofItems? trees h

end WorkflowRecipes
