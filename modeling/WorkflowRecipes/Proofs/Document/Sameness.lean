import Mathlib.Data.Fintype.EquivFin
import WorkflowRecipes.Proofs.Document.Entries
import WorkflowRecipes.Yaml.Document

/-!
# Sameness of documents

Sameness is reflexive and transitive. It is symmetric where no mapping has two keys that are the
same, for then the entries of one mapping are matched with those of the other one by one.

Results:
1. `same_refl`, `same_trans`, `same_symm`.
2. `eq_of_same_key`: entries of a well-formed mapping are determined by their keys.
3. `eq_of_same_strings`: a list of strings is the same only as itself.
-/

namespace WorkflowRecipes

namespace Binary64

theorem same_refl (x : Binary64) : x.same x = true := by
  cases x <;> simp [same]

theorem same_symm {x y : Binary64} (h : x.same y = true) : y.same x = true := by
  cases x <;> cases y <;> simp_all [same]
  tauto

theorem same_trans {x y z : Binary64} (hxy : x.same y = true) (hyz : y.same z = true) :
    x.same z = true := by
  cases x <;> cases y <;> cases z <;> simp_all [same]
  grind

end Binary64

namespace Number

theorem same_refl (n : Number) : n.same n = true := by
  cases n <;> simp [same, Binary64.same_refl]

theorem same_symm {n m : Number} (h : n.same m = true) : m.same n = true := by
  cases n <;> cases m <;> simp_all [same]
  exact Binary64.same_symm h

theorem same_trans {n m k : Number} (hnm : n.same m = true) (hmk : m.same k = true) :
    n.same k = true := by
  cases n <;> cases m <;> cases k <;> simp_all [same]
  exact Binary64.same_trans hnm hmk

end Number

namespace Value

/-! ## Sameness by cases -/

theorem same_null_iff {value : Value} : Value.null.same value = true ↔ value = .null := by
  cases value <;> simp [same]

theorem same_bool_iff {b : Bool} {value : Value} :
    (Value.bool b).same value = true ↔ value = .bool b := by
  cases value with
  | bool other =>
    rw [same, beq_iff_eq, bool.injEq]
    exact eq_comm
  | _ => simp [same]

theorem same_number_iff {n : Number} {value : Value} :
    (Value.number n).same value = true ↔ ∃ m, value = .number m ∧ n.same m = true := by
  cases value <;> simp [same]

theorem same_sequence_iff {items : List Value} {value : Value} :
    (Value.sequence items).same value = true ↔
      ∃ others, value = .sequence others ∧ sameItems items others = true := by
  cases value <;> simp [same]

theorem same_mapping_iff {entries : Entries} {value : Value} :
    (Value.mapping entries).same value = true ↔
      ∃ others, value = .mapping others ∧ entries.length = others.length ∧
        sameEntries entries others = true := by
  cases value <;> simp [same]

theorem same_tagged_iff {tag : String} {inner value : Value} :
    (Value.tagged tag inner).same value = true ↔
      ∃ other, value = .tagged tag other ∧ inner.same other = true := by
  cases value with
  | tagged tag' other =>
    simp only [same, Bool.and_eq_true, beq_iff_eq, tagged.injEq]
    constructor
    · rintro ⟨rfl, h⟩
      exact ⟨other, ⟨rfl, rfl⟩, h⟩
    · rintro ⟨_, ⟨rfl, rfl⟩, h⟩
      exact ⟨rfl, h⟩
  | _ => simp [same]

/-- An integer is the same only as an equal one. -/
theorem same_integer_iff {n : Int} {value : Value} :
    (Value.number (.integer n)).same value = true ↔ value = .number (.integer n) := by
  rw [same_number_iff]
  constructor
  · rintro ⟨m, rfl, h⟩
    cases m with
    | integer k => rw [beq_iff_eq.mp h]
    | float x => cases h
  · rintro rfl
    exact ⟨_, rfl, beq_self_eq_true n⟩

theorem sameItems_iff {items others : List Value} :
    sameItems items others = true ↔ List.Forall₂ (fun a b => a.same b = true) items others := by
  induction items generalizing others with
  | nil => cases others <;> simp [sameItems]
  | cons item rest ih => cases others <;> simp [sameItems, ih]

theorem sameEntries_iff {entries others : Entries} :
    sameEntries entries others = true ↔
      ∀ e ∈ entries, ∃ e' ∈ others, e.1.same e'.1 = true ∧ e.2.same e'.2 = true := by
  induction entries with
  | nil => simp [sameEntries]
  | cons entry rest ih =>
    obtain ⟨key, value⟩ := entry
    simp [sameEntries, ih]

/-! ## Reflexivity and transitivity -/

mutual

theorem same_refl : ∀ value : Value, value.same value = true
  | .null => rfl
  | .bool _ => same_bool_iff.mpr rfl
  | .number n => same_number_iff.mpr ⟨n, rfl, n.same_refl⟩
  | .string _ => same_string_iff.mpr rfl
  | .sequence items => same_sequence_iff.mpr ⟨items, rfl, sameItems_refl items⟩
  | .mapping entries => same_mapping_iff.mpr ⟨entries, rfl, rfl,
      sameEntries_iff.mpr fun e he => ⟨e, he, same_refl_of_mem entries e he⟩⟩
  | .tagged _ value => same_tagged_iff.mpr ⟨value, rfl, same_refl value⟩

theorem sameItems_refl : ∀ items : List Value, sameItems items items = true
  | [] => rfl
  | item :: rest => by
    rw [sameItems, same_refl item, sameItems_refl rest]
    rfl

theorem same_refl_of_mem : ∀ (entries : List (Value × Value)), ∀ e ∈ entries,
    e.1.same e.1 = true ∧ e.2.same e.2 = true
  | [], _, h => nomatch h
  | (key, value) :: rest, e, h => by
    rcases List.mem_cons.mp h with rfl | h
    · exact ⟨same_refl key, same_refl value⟩
    · exact same_refl_of_mem rest e h

end

mutual

theorem same_trans : ∀ {a b c : Value}, a.same b = true → b.same c = true → a.same c = true
  | .null, _, _, hab, hbc => by
    rw [same_null_iff.mp hab] at hbc
    exact hbc
  | .bool _, _, _, hab, hbc => by
    rw [same_bool_iff.mp hab] at hbc
    exact hbc
  | .string _, _, _, hab, hbc => by
    rw [same_string_iff.mp hab] at hbc
    exact hbc
  | .number n, _, _, hab, hbc => by
    obtain ⟨m, rfl, hnm⟩ := same_number_iff.mp hab
    obtain ⟨k, rfl, hmk⟩ := same_number_iff.mp hbc
    exact same_number_iff.mpr ⟨k, rfl, Number.same_trans hnm hmk⟩
  | .sequence items, _, _, hab, hbc => by
    obtain ⟨items', rfl, hab⟩ := same_sequence_iff.mp hab
    obtain ⟨items'', rfl, hbc⟩ := same_sequence_iff.mp hbc
    exact same_sequence_iff.mpr ⟨items'', rfl, sameItems_trans items hab hbc⟩
  | .mapping entries, _, _, hab, hbc => by
    obtain ⟨entries', rfl, hlength, hab⟩ := same_mapping_iff.mp hab
    obtain ⟨entries'', rfl, hlength', hbc⟩ := same_mapping_iff.mp hbc
    rw [sameEntries_iff] at hab hbc
    refine same_mapping_iff.mpr ⟨entries'', rfl, hlength.trans hlength',
      sameEntries_iff.mpr fun e he => ?_⟩
    obtain ⟨e', he', hkey, hvalue⟩ := hab e he
    obtain ⟨e'', he'', hkey', hvalue'⟩ := hbc e' he'
    obtain ⟨hk, hv⟩ := same_trans_of_mem entries e he
    exact ⟨e'', he'', hk hkey hkey', hv hvalue hvalue'⟩
  | .tagged _ inner, _, _, hab, hbc => by
    obtain ⟨inner', rfl, h⟩ := same_tagged_iff.mp hab
    obtain ⟨inner'', rfl, h'⟩ := same_tagged_iff.mp hbc
    exact same_tagged_iff.mpr ⟨inner'', rfl, same_trans (a := inner) h h'⟩

theorem sameItems_trans : ∀ (a : List Value) {b c : List Value}, sameItems a b = true →
    sameItems b c = true → sameItems a c = true
  | [], [], [], _, _ => rfl
  | item :: rest, item' :: rest', item'' :: rest'', hab, hbc => by
    rw [sameItems, Bool.and_eq_true] at hab hbc ⊢
    exact ⟨same_trans (a := item) hab.1 hbc.1, sameItems_trans rest hab.2 hbc.2⟩

theorem same_trans_of_mem : ∀ (entries : List (Value × Value)), ∀ e ∈ entries,
    (∀ {b c : Value}, e.1.same b = true → b.same c = true → e.1.same c = true) ∧
      ∀ {b c : Value}, e.2.same b = true → b.same c = true → e.2.same c = true
  | [], _, h => nomatch h
  | (key, value) :: rest, e, h => by
    rcases List.mem_cons.mp h with rfl | h
    · exact ⟨same_trans (a := key), same_trans (a := value)⟩
    · exact same_trans_of_mem rest e h

end

/-! ## Well-formed documents -/

mutual

/-- No mapping in a value has two keys that are the same. -/
def WellFormed : Value → Prop
  | .sequence items => WellFormedItems items
  | .mapping entries => Yaml.keysDiffer entries = true ∧ WellFormedEntries entries
  | .tagged _ value => WellFormed value
  | _ => True

/-- No mapping in the items has two keys that are the same. -/
def WellFormedItems : List Value → Prop
  | [] => True
  | item :: rest => WellFormed item ∧ WellFormedItems rest

/-- No mapping in the keys and values has two keys that are the same. -/
def WellFormedEntries : List (Value × Value) → Prop
  | [] => True
  | (key, value) :: rest => WellFormed key ∧ WellFormed value ∧ WellFormedEntries rest

end

theorem wellFormedItems_iff {items : List Value} :
    WellFormedItems items ↔ ∀ item ∈ items, item.WellFormed := by
  induction items with
  | nil => simp [WellFormedItems]
  | cons item rest ih => rw [WellFormedItems, ih, List.forall_mem_cons]

theorem wellFormedEntries_iff {entries : Entries} :
    WellFormedEntries entries ↔ ∀ e ∈ entries, e.1.WellFormed ∧ e.2.WellFormed := by
  induction entries with
  | nil => simp [WellFormedEntries]
  | cons entry rest ih =>
    obtain ⟨key, value⟩ := entry
    rw [WellFormedEntries, ih, List.forall_mem_cons, and_assoc]

theorem keysDiffer_iff {entries : Entries} :
    Yaml.keysDiffer entries = true ↔
      entries.Pairwise fun earlier later => later.1.same earlier.1 = false := by
  induction entries with
  | nil => simp [Yaml.keysDiffer]
  | cons entry rest ih =>
    obtain ⟨key, value⟩ := entry
    simp [Yaml.keysDiffer, ih]

/-! ## Symmetry -/

/-- Sameness with a value on the left can be turned around. -/
def Turns (value : Value) : Prop :=
  ∀ {other : Value}, value.same other = true → other.same value = true

/-- Entries with keys that differ are matched one by one with as many others. -/
theorem sameEntries_symm {entries others : Entries} (hdiffer : Yaml.keysDiffer entries = true)
    (hturns : ∀ e ∈ entries, Turns e.1 ∧ Turns e.2) (hlength : entries.length = others.length)
    (h : sameEntries entries others = true) : sameEntries others entries = true := by
  rw [sameEntries_iff] at h
  -- Each entry is matched with a place in the other mapping. Different entries have different
  -- places, for their keys differ, and there are as many places, so every place is taken.
  have hmatch : ∀ i : Fin entries.length, ∃ j : Fin others.length,
      entries[i].1.same others[j].1 = true ∧ entries[i].2.same others[j].2 = true := by
    intro i
    obtain ⟨e', he', hsame⟩ := h entries[i] (List.getElem_mem i.2)
    obtain ⟨j, hj, rfl⟩ := List.getElem_of_mem he'
    exact ⟨⟨j, hj⟩, hsame⟩
  choose f hf using hmatch
  have hdistinct : ∀ i i' : Fin entries.length, i < i' → f i ≠ f i' := by
    intro i i' hlt heq
    have hkey := (hf i).1
    rw [heq] at hkey
    have hboth := same_trans hkey ((hturns entries[i'] (List.getElem_mem i'.2)).1 (hf i').1)
    have hturned := (hturns entries[i] (List.getElem_mem i.2)).1 hboth
    have hdiff := (List.pairwise_iff_getElem.mp (keysDiffer_iff.mp hdiffer)) i i' i.2 i'.2 hlt
    exact absurd hturned (by rw [Fin.getElem_fin, Fin.getElem_fin, hdiff]; exact Bool.false_ne_true)
  have hinjective : Function.Injective f := by
    intro i i' heq
    rcases lt_trichotomy i i' with hlt | rfl | hlt
    · exact absurd heq (hdistinct i i' hlt)
    · rfl
    · exact absurd heq.symm (hdistinct i' i hlt)
  have hsurjective : Function.Surjective f :=
    ((Fintype.bijective_iff_injective_and_card f).mpr ⟨hinjective, by simp [hlength]⟩).2
  rw [sameEntries_iff]
  intro e' he'
  obtain ⟨j, hj, rfl⟩ := List.getElem_of_mem he'
  obtain ⟨i, hi⟩ := hsurjective ⟨j, hj⟩
  have hentry := hf i
  rw [hi] at hentry
  obtain ⟨hk, hv⟩ := hturns entries[i] (List.getElem_mem i.2)
  exact ⟨entries[i], List.getElem_mem i.2, hk hentry.1, hv hentry.2⟩

mutual

/-- Sameness with a well-formed value can be turned around. -/
theorem same_symm : ∀ {a : Value}, a.WellFormed → Turns a
  | .null, _, _, h => by
    rw [same_null_iff.mp h]
    exact same_refl _
  | .bool _, _, _, h => by
    rw [same_bool_iff.mp h]
    exact same_refl _
  | .string _, _, _, h => by
    rw [same_string_iff.mp h]
    exact same_refl _
  | .number n, _, _, h => by
    obtain ⟨m, rfl, hnm⟩ := same_number_iff.mp h
    exact same_number_iff.mpr ⟨n, rfl, Number.same_symm hnm⟩
  | .sequence items, hwf, _, h => by
    obtain ⟨others, rfl, hitems⟩ := same_sequence_iff.mp h
    exact same_sequence_iff.mpr ⟨items, rfl, sameItems_symm items hwf hitems⟩
  | .mapping entries, hwf, _, h => by
    obtain ⟨others, rfl, hlength, hentries⟩ := same_mapping_iff.mp h
    exact same_mapping_iff.mpr ⟨entries, rfl, hlength.symm,
      sameEntries_symm hwf.1 (turns_of_mem entries hwf.2) hlength hentries⟩
  | .tagged _ inner, hwf, _, h => by
    obtain ⟨other, rfl, hinner⟩ := same_tagged_iff.mp h
    exact same_tagged_iff.mpr ⟨inner, rfl, same_symm (a := inner) hwf hinner⟩

theorem sameItems_symm : ∀ (items : List Value) {others : List Value}, WellFormedItems items →
    sameItems items others = true → sameItems others items = true
  | [], [], _, _ => rfl
  | item :: rest, other :: others, hwf, h => by
    rw [sameItems, Bool.and_eq_true] at h ⊢
    exact ⟨same_symm (a := item) hwf.1 h.1, sameItems_symm rest hwf.2 h.2⟩

theorem turns_of_mem : ∀ (entries : List (Value × Value)), WellFormedEntries entries →
    ∀ e ∈ entries, Turns e.1 ∧ Turns e.2
  | [], _, _, h => nomatch h
  | (key, value) :: rest, hwf, e, h => by
    rcases List.mem_cons.mp h with rfl | h
    · exact ⟨same_symm (a := key) hwf.1, same_symm (a := value) hwf.2.1⟩
    · exact turns_of_mem rest hwf.2.2 e h

end

/-! ## Entries and their keys -/

/-- Entries of a well-formed mapping are determined by their keys. -/
theorem eq_of_same_key {entries : Entries} (hwf : (Value.mapping entries).WellFormed)
    {e e' : Value × Value} (he : e ∈ entries) (he' : e' ∈ entries)
    (h : e.1.same e'.1 = true) : e = e' := by
  obtain ⟨hdiffer, hentries⟩ := hwf
  obtain ⟨i, hi, rfl⟩ := List.getElem_of_mem he
  obtain ⟨j, hj, rfl⟩ := List.getElem_of_mem he'
  have hdiff := List.pairwise_iff_getElem.mp (keysDiffer_iff.mp hdiffer)
  rcases lt_trichotomy i j with hlt | rfl | hlt
  · have hturned := same_symm (wellFormedEntries_iff.mp hentries _ he).1 h
    rw [hdiff i j hi hj hlt] at hturned
    cases hturned
  · rfl
  · rw [hdiff j i hj hi hlt] at h
    cases h

/-- When only values of a well-formed mapping are changed and it is still the same, then each value
is the same as before. -/
theorem forall₂_of_sameEntries {entries entries' : Entries}
    (hwf : (Value.mapping entries).WellFormed)
    (hkeys : List.Forall₂ (fun e' e => e'.1 = e.1) entries' entries)
    (h : sameEntries entries' entries = true) :
    List.Forall₂ (fun e' e => e'.1 = e.1 ∧ e'.2.same e.2 = true) entries' entries := by
  rw [sameEntries_iff] at h
  rw [List.forall₂_iff_get] at hkeys ⊢
  refine ⟨hkeys.1, fun i hi' hi => ⟨hkeys.2 i hi' hi, ?_⟩⟩
  obtain ⟨e, he, hkey, hvalue⟩ := h (entries'.get ⟨i, hi'⟩) (List.getElem_mem hi')
  rw [hkeys.2 i hi' hi] at hkey
  rw [← eq_of_same_key hwf (List.getElem_mem hi) he hkey] at hvalue
  exact hvalue

/-- A list of strings is the same only as itself. -/
theorem eq_of_same_strings {texts : List String} {value : Value}
    (h : (Value.sequence (texts.map .string)).same value = true) :
    value = .sequence (texts.map .string) := by
  obtain ⟨others, rfl, hitems⟩ := same_sequence_iff.mp h
  congr 1
  rw [sameItems_iff] at hitems
  clear h
  induction texts generalizing others with
  | nil =>
    cases hitems
    rfl
  | cons text rest ih =>
    obtain _ | ⟨hhead, htail⟩ := hitems
    rw [same_string_iff.mp hhead, List.map_cons]
    exact congrArg _ (ih _ htail)

end Value

end WorkflowRecipes
