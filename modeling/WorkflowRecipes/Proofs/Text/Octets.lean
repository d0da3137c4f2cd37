import Mathlib.Data.List.Lex
import Mathlib.Tactic.SplitIfs

/-!
# The octets of texts

Texts are compared by their characters. Their octets are in the same order: a character with a
larger number has a larger first octet, or the same one and a larger octet behind it.

Results:
1. `Octets.ofText_eq_flatMap`: the octets of a text are those of its characters, one after another.
2. `Octets.ofText_lt_iff`: the order of texts is that of their octets.
3. `Octets.namesLt_iff_compare`: so is the order of lists of names.
-/

namespace WorkflowRecipes

namespace Octets

/-- The octets of a text. -/
def ofText (text : String) : List UInt8 := text.toUTF8.data.toList

theorem ofText_append (s t : String) : ofText (s ++ t) = ofText s ++ ofText t := by
  simp [ofText, String.toByteArray_append]

theorem ofText_inj {s t : String} : ofText s = ofText t ↔ s = t := by
  rw [ofText, ofText, Array.toList_inj, ← ByteArray.ext_iff, String.toUTF8, String.toUTF8,
    String.toByteArray_inj]

theorem ofText_eq_flatMap (text : String) :
    ofText text = text.toList.flatMap String.utf8EncodeChar := by
  rw [ofText, String.toUTF8, ← String.utf8Encode_toList, List.utf8Encode,
    List.toList_data_toByteArray]

/-! ## Order -/

/-- The octets of a smaller character come first, whatever follows. -/
theorem utf8EncodeChar_append_lt {c d : Char} (h : c < d) (s t : List UInt8) :
    String.utf8EncodeChar c ++ s < String.utf8EncodeChar d ++ t := by
  have hval : c.val.toNat < d.val.toNat := UInt32.lt_iff_toNat_lt.mp h
  have hbound : d.val.toNat < 0x110000 := by
    rcases d.valid with hlow | ⟨-, hhigh⟩
    · exact Nat.lt_trans hlow (by decide)
    · exact hhigh
  have hlt : ∀ m n : Nat, UInt8.ofNat m < UInt8.ofNat n ↔ m % 256 < n % 256 := by
    intro m n
    rw [UInt8.lt_iff_toNat_lt, UInt8.toNat_ofNat', UInt8.toNat_ofNat']
  have heq : ∀ m n : Nat, UInt8.ofNat m = UInt8.ofNat n ↔ m % 256 = n % 256 := by
    intro m n
    rw [← UInt8.toNat_inj, UInt8.toNat_ofNat', UInt8.toNat_ofNat']
  unfold String.utf8EncodeChar
  generalize c.val.toNat = m at hval ⊢
  generalize d.val.toNat = n at hval hbound ⊢
  dsimp only
  -- The first octet tells the forms apart, and grows with their length. Within one form the octets
  -- are the digits of the number.
  split_ifs
  all_goals
    simp (disch := omega) only [List.cons_append, List.nil_append, List.cons_lt_cons_iff, hlt, heq,
      Nat.mod_eq_of_lt]
    omega

theorem flatMap_utf8EncodeChar_lt {s t : List Char} (h : s < t) :
    s.flatMap String.utf8EncodeChar < t.flatMap String.utf8EncodeChar := by
  induction s generalizing t with
  | nil =>
    cases t with
    | nil => exact absurd h (List.not_lt_nil _)
    | cons d t =>
      obtain ⟨octet, octets, hd⟩ :=
        List.exists_cons_of_ne_nil (String.utf8EncodeChar_ne_nil (c := d))
      rw [List.flatMap_cons, hd]
      exact List.nil_lt_cons _ _
  | cons c s ih =>
    cases t with
    | nil => exact absurd h (List.not_lt_nil _)
    | cons d t =>
      rw [List.flatMap_cons, List.flatMap_cons]
      rcases List.cons_lt_cons_iff.mp h with hcd | ⟨rfl, hst⟩
      · exact utf8EncodeChar_append_lt hcd _ _
      · exact List.append_left_lt (ih hst)

theorem ofText_lt {s t : String} (h : s < t) : ofText s < ofText t := by
  rw [ofText_eq_flatMap, ofText_eq_flatMap]
  exact flatMap_utf8EncodeChar_lt (String.lt_iff.mp h)

/-- Texts are in the order of their octets. -/
theorem ofText_lt_iff {s t : String} : ofText s < ofText t ↔ s < t := by
  constructor
  · intro h
    by_contra hst
    by_cases hts : t < s
    · exact List.lt_asymm h (ofText_lt hts)
    · rw [String.le_antisymm hts hst] at h
      exact List.lt_irrefl _ h
  · exact ofText_lt

/-! ## Lists of names -/

/-- The order of lists of names. They are compared name by name, and names octet by octet. -/
def NamesLt (a b : List String) : Prop := a.map ofText < b.map ofText

theorem namesLt_nil_cons (name : String) (b : List String) : NamesLt [] (name :: b) :=
  List.nil_lt_cons _ _

theorem not_namesLt_nil (a : List String) : ¬ NamesLt a [] := List.not_lt_nil _

theorem namesLt_cons_cons {name name' : String} {a b : List String} :
    NamesLt (name :: a) (name' :: b) ↔
      ofText name < ofText name' ∨ name = name' ∧ NamesLt a b := by
  rw [NamesLt, List.map_cons, List.map_cons, List.cons_lt_cons_iff, ofText_inj]
  rfl

theorem namesLt_append_left {base a b : List String} :
    NamesLt (base ++ a) (base ++ b) ↔ NamesLt a b := by
  induction base with
  | nil => rfl
  | cons name base ih =>
    rw [List.cons_append, List.cons_append, namesLt_cons_cons, ih]
    simp [List.lt_irrefl]

theorem not_namesLt_self (a : List String) : ¬ NamesLt a a := List.lt_irrefl _

theorem NamesLt.asymm {a b : List String} (h : NamesLt a b) : ¬ NamesLt b a := List.lt_asymm h

theorem namesLt_iff_compare {a b : List String} : NamesLt a b ↔ compare a b = .lt := by
  induction a generalizing b with
  | nil =>
    cases b with
    | nil => exact iff_of_false (not_namesLt_self _) (by decide)
    | cons name b => exact iff_of_true (namesLt_nil_cons name b) rfl
  | cons name a ih =>
    cases b with
    | nil => exact iff_of_false (not_namesLt_nil _) nofun
    | cons name' b =>
      have hname : compare name name' = .lt ↔ name < name' := compareOfLessAndEq_eq_lt
      rw [namesLt_cons_cons, List.compare_cons_cons, Ordering.then_eq_lt, hname,
        Std.LawfulEqOrd.compare_eq_iff_eq, ofText_lt_iff, ih]

end Octets

end WorkflowRecipes
