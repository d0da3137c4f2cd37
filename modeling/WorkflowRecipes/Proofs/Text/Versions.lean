import Mathlib.Data.List.TakeWhile
import WorkflowRecipes.Version

/-!
# Versions and their major numbers

A version is written as groups of digits with points between them, and an ending that starts with a
minus or a plus, or none. Its major number is what the first group stands for, whatever its size;
only numbers of 32 bits are compared with the least one wanted.

Results:
1. `isTail_iff`, `number?_eq_some_iff`: what is read is what is written so.
2. `hasMajor_toString`: a number is a version, and its own major number.
3. `raised?_eq_some_iff`: which versions are raised.
4. `major?_raised?_written`: all of this for numbers of 32 bits, and what a raised version is.
-/

namespace WorkflowRecipes

namespace Text

theorem toList_toString (n : Nat) : (toString n).toList = Nat.toDigits 10 n := by
  rw [Nat.toString_eq_ofList_toDigits, String.toList_ofList]

/-- The digits of a number stand for it. -/
theorem natural?_toString (n : Nat) : natural? (toString n).toList = some n := by
  have hdigits : (Nat.toDigits 10 n).all Char.isDigit = true :=
    List.all_eq_true.mpr fun c => Nat.isDigit_of_mem_toDigits (by decide) (by decide)
  have hvalue : valueOfDigits (Nat.toDigits 10 n) = n :=
    Nat.ofDigitChars_toDigits (by decide) (by decide)
  rw [toList_toString, natural?, hdigits, hvalue]
  simp [Nat.toDigits_ne_nil]

theorem natural?_eq_some_iff {text : List Char} {n : Nat} : natural? text = some n ↔
    (text ≠ [] ∧ ∀ c ∈ text, c.isDigit = true) ∧ valueOfDigits text = n := by
  rw [natural?, Option.ite_none_right_eq_some, Option.some.injEq, Bool.and_eq_true,
    Bool.not_eq_true', ← Bool.not_eq_true, List.isEmpty_iff, List.all_eq_true]

end Text

namespace Version

/-! ## How versions are written -/

/-- A group of digits. -/
def IsGroup (text : List Char) : Prop := text ≠ [] ∧ ∀ c ∈ text, c.isDigit = true

/-- What may stand behind the groups: nothing, or a minus or plus and the rest of the line. -/
def IsEnding (text : List Char) : Prop :=
  text = [] ∨ ∃ sign rest, text = sign :: rest ∧ (sign = '-' ∨ sign = '+') ∧ '\n' ∉ rest

/-- Groups, with a point before each. -/
def pointed (groups : List (List Char)) : List Char := groups.flatMap fun group => '.' :: group

/-- A text is a version with a major number. -/
def HasMajor (text : List Char) (n : Nat) : Prop :=
  ∃ first groups ending, text = first ++ (pointed groups ++ ending) ∧ IsGroup first ∧
    (∀ group ∈ groups, IsGroup group) ∧ IsEnding ending ∧ Text.valueOfDigits first = n

/-- The major number of a version, of any size. -/
def number? (version : String) : Option Nat :=
  if isTail false (version.toList.dropWhile Char.isDigit) then
    Text.natural? (version.toList.takeWhile Char.isDigit)
  else none

theorem major?_eq (version : String) :
    major? version = (number? version).filter (· < UInt32.size) := by
  unfold major? number?
  dsimp only
  split <;> rfl

/-! ## What follows the first digits -/

/-- What may follow the first digits: more of them, groups behind points, and an ending. After a
point that has just opened a group there are more. -/
def Continues (opened : Bool) (text : List Char) : Prop :=
  ∃ digits groups ending, text = digits ++ (pointed groups ++ ending) ∧
    (∀ c ∈ digits, c.isDigit = true) ∧ (opened = true → digits ≠ []) ∧
    (∀ group ∈ groups, IsGroup group) ∧ IsEnding ending

variable {opened : Bool} {c : Char} {text rest ending : List Char} {groups : List (List Char)}

theorem isDigit_sign (hsign : c = '-' ∨ c = '+') : c.isDigit = false ∧ c ≠ '.' := by
  rcases hsign with rfl | rfl <;> decide

/-- Groups behind points and an ending start with no digit. -/
theorem isDigit_pointed (hending : IsEnding ending) (heq : c :: rest = pointed groups ++ ending) :
    c.isDigit = false := by
  cases groups with
  | cons group groups =>
    rw [(List.cons.inj heq).1]
    rfl
  | nil =>
    obtain rfl | ⟨sign, line, rfl, hsign, -⟩ := hending
    · cases heq
    · rw [(List.cons.inj heq).1]
      exact (isDigit_sign hsign).1

theorem continues_nil : Continues opened [] ↔ opened = false := by
  constructor
  · rintro ⟨digits, groups, ending, heq, -, hopened, -⟩
    rw [← Bool.not_eq_true]
    exact fun h => hopened h (List.append_eq_nil_iff.mp heq.symm).1
  · rintro rfl
    exact ⟨[], [], [], rfl, List.forall_mem_nil _, nofun, List.forall_mem_nil _, .inl rfl⟩

theorem continues_digit (hc : c.isDigit = true) :
    Continues opened (c :: rest) ↔ Continues false rest := by
  constructor
  · rintro ⟨digits, groups, ending, heq, hdigits, -, hgroups, hending⟩
    cases digits with
    | nil => exact absurd (isDigit_pointed hending heq) (by rw [hc]; decide)
    | cons d digits =>
      exact ⟨digits, groups, ending, (List.cons.inj heq).2, (List.forall_mem_cons.mp hdigits).2,
        nofun, hgroups, hending⟩
  · rintro ⟨digits, groups, ending, rfl, hdigits, -, hgroups, hending⟩
    exact ⟨c :: digits, groups, ending, rfl, List.forall_mem_cons.mpr ⟨hc, hdigits⟩,
      fun _ => List.cons_ne_nil _ _, hgroups, hending⟩

/-- Where no digit comes first, the text is groups behind points and an ending. -/
theorem continues_of_not_isDigit (hc : c.isDigit = false) : Continues opened (c :: rest) ↔
    opened = false ∧ ∃ groups ending, c :: rest = pointed groups ++ ending ∧
      (∀ group ∈ groups, IsGroup group) ∧ IsEnding ending := by
  constructor
  · rintro ⟨digits, groups, ending, heq, hdigits, hopened, hgroups, hending⟩
    cases digits with
    | nil =>
      exact ⟨by rw [← Bool.not_eq_true]; exact fun h => hopened h rfl, groups, ending, heq, hgroups,
        hending⟩
    | cons d digits =>
      have hd := hdigits d List.mem_cons_self
      rw [← (List.cons.inj heq).1, hc] at hd
      cases hd
  · rintro ⟨rfl, groups, ending, heq, hgroups, hending⟩
    exact ⟨[], groups, ending, heq, List.forall_mem_nil _, nofun, hgroups, hending⟩

theorem continues_point : Continues false ('.' :: rest) ↔ Continues true rest := by
  rw [continues_of_not_isDigit (by decide)]
  constructor
  · rintro ⟨-, groups, ending, heq, hgroups, hending⟩
    cases groups with
    | nil =>
      obtain rfl | ⟨sign, line, rfl, hsign, -⟩ := hending
      · cases heq
      · exact absurd (List.cons.inj heq).1.symm (isDigit_sign hsign).2
    | cons group groups =>
      obtain ⟨⟨hne, hdigits⟩, hgroups⟩ := List.forall_mem_cons.mp hgroups
      refine ⟨group, groups, ending, ?_, hdigits, fun _ => hne, hgroups, hending⟩
      exact (List.cons.inj heq).2.trans (List.append_assoc group (pointed groups) ending)
  · rintro ⟨group, groups, ending, rfl, hdigits, hne, hgroups, hending⟩
    refine ⟨rfl, group :: groups, ending, ?_,
      List.forall_mem_cons.mpr ⟨⟨hne rfl, hdigits⟩, hgroups⟩, hending⟩
    simp [pointed]

theorem continues_other (hc : c.isDigit = false) (hpoint : c ≠ '.') :
    Continues false (c :: rest) ↔ (c = '-' ∨ c = '+') ∧ '\n' ∉ rest := by
  rw [continues_of_not_isDigit hc]
  constructor
  · rintro ⟨-, groups, ending, heq, -, hending⟩
    cases groups with
    | nil =>
      obtain rfl | ⟨sign, line, rfl, hsign, hline⟩ := hending
      · cases heq
      · obtain ⟨rfl, rfl⟩ := List.cons.inj heq
        exact ⟨hsign, hline⟩
    | cons group groups => exact absurd (List.cons.inj heq).1 hpoint
  · rintro ⟨hsign, hline⟩
    exact ⟨rfl, [], c :: rest, rfl, List.forall_mem_nil _, .inr ⟨c, rest, rfl, hsign, hline⟩⟩

theorem isTail_iff : isTail opened text = true ↔ Continues opened text := by
  induction text generalizing opened with
  | nil => rw [isTail, continues_nil, Bool.not_eq_true']
  | cons c rest ih =>
    rw [isTail]
    cases hdigit : c.isDigit with
    | true => rw [if_pos rfl, ih, continues_digit hdigit]
    | false =>
      rw [if_neg Bool.false_ne_true]
      cases opened with
      | true =>
        rw [if_pos rfl, continues_of_not_isDigit hdigit]
        simp
      | false =>
        rw [if_neg Bool.false_ne_true]
        split
        · next hpoint => rw [hpoint, ih, continues_point]
        · next hpoint =>
          rw [continues_other hdigit hpoint]
          simp

/-- What is read as a version is what is written as one. -/
theorem number?_eq_some_iff {version : String} {n : Nat} :
    number? version = some n ↔ HasMajor version.toList n := by
  rw [number?, Option.ite_none_right_eq_some, Text.natural?_eq_some_iff, isTail_iff]
  constructor
  · rintro ⟨⟨digits, groups, ending, heq, hdigits, -, hgroups, hending⟩, hfirst, hvalue⟩
    refine ⟨_, groups, ending, ?_, hfirst, hgroups, hending, hvalue⟩
    -- All digits at the start have been taken, so none follow.
    cases digits with
    | nil =>
      rw [List.nil_append] at heq
      rw [← heq, List.takeWhile_append_dropWhile]
    | cons d digits =>
      have hd := List.head?_dropWhile_not Char.isDigit version.toList
      rw [heq] at hd
      exact absurd hd (by simp [hdigits d List.mem_cons_self])
  · rintro ⟨first, groups, ending, heq, hfirst, hgroups, hending, hvalue⟩
    have htake : version.toList.takeWhile Char.isDigit = first ∧
        version.toList.dropWhile Char.isDigit = pointed groups ++ ending := by
      rw [heq, List.takeWhile_append_of_pos hfirst.2, List.dropWhile_append_of_pos hfirst.2]
      cases hrest : pointed groups ++ ending with
      | nil => simp
      | cons c rest => simp [isDigit_pointed hending hrest.symm]
    rw [htake.1, htake.2]
    exact ⟨⟨[], groups, ending, rfl, List.forall_mem_nil _, nofun, hgroups, hending⟩, hfirst,
      hvalue⟩

/-- A version has one major number. -/
theorem HasMajor.unique {version : String} {m n : Nat} (hm : HasMajor version.toList m)
    (hn : HasMajor version.toList n) : m = n :=
  Option.some.inj ((number?_eq_some_iff.mpr hm).symm.trans (number?_eq_some_iff.mpr hn))

/-- A number is a version, and its own major number. -/
theorem hasMajor_toString (n : Nat) : HasMajor (toString n).toList n := by
  have hnatural := Text.natural?_eq_some_iff.mp (Text.natural?_toString n)
  exact ⟨_, [], [], (List.append_nil _).symm, hnatural.1, List.forall_mem_nil _, .inl rfl,
    hnatural.2⟩

/-- A version is raised if its major number is below the least one. -/
theorem raised?_eq_some_iff {version new : String} {least : Nat} (hleast : least < UInt32.size) :
    raised? version least = some new ↔
      ∃ n, HasMajor version.toList n ∧ n < least ∧ new = toString least := by
  simp only [← number?_eq_some_iff]
  rw [raised?, major?_eq]
  cases number? version with
  | none => simp
  | some n =>
    rw [Option.filter_some]
    by_cases hn : n < UInt32.size
    · simp [hn, eq_comm]
    · have hge : ¬ n < least := by omega
      simp [hn, hge]

/-! ## Numbers of 32 bits -/

theorem major?_eq_some_iff {version : String} {n : Nat} :
    major? version = some n ↔ HasMajor version.toList n ∧ n < UInt32.size := by
  rw [major?_eq, Option.filter_eq_some_iff, number?_eq_some_iff, decide_eq_true_iff]

theorem major?_toString {n : Nat} (h : n < UInt32.size) : major? (toString n) = some n :=
  major?_eq_some_iff.mpr ⟨hasMajor_toString n, h⟩

/-- A version that has been raised to a number is not raised to that number or a lower one. -/
theorem raised?_toString {n lower : Nat} (h : n < UInt32.size) (hlower : lower ≤ n) :
    raised? (toString n) lower = none := by
  rw [raised?, major?_toString h]
  exact if_neg (Nat.not_lt.mpr hlower)

/-- The major number of a text is read if and only if the text is written as a version and the
number has 32 bits; a version is raised if and only if that number is below the least one wanted;
and what it is raised to is a version with this very number, which is not raised again. -/
theorem major?_raised?_written (version : String) (least : UInt32) :
    (∀ n, major? version = some n ↔ HasMajor version.toList n ∧ n < UInt32.size) ∧
    ((raised? version least.toNat).isSome = true ↔
      ∃ n < least.toNat, HasMajor version.toList n) ∧
    ∀ new, raised? version least.toNat = some new →
      major? new = some least.toNat ∧ ∀ lower ≤ least, raised? new lower.toNat = none := by
  have hleast : least.toNat < UInt32.size := least.toNat_lt_size
  refine ⟨fun n => major?_eq_some_iff, ?_, fun new hnew => ?_⟩
  · rw [Option.isSome_iff_exists]
    constructor
    · rintro ⟨new, hnew⟩
      obtain ⟨n, hn, hlt, -⟩ := (raised?_eq_some_iff hleast).mp hnew
      exact ⟨n, hlt, hn⟩
    · rintro ⟨n, hlt, hn⟩
      exact ⟨toString least.toNat, (raised?_eq_some_iff hleast).mpr ⟨n, hn, hlt, rfl⟩⟩
  · obtain ⟨n, -, -, rfl⟩ := (raised?_eq_some_iff hleast).mp hnew
    exact ⟨major?_toString hleast, fun lower hlower => raised?_toString hleast hlower⟩

/-- Leading zeros count for nothing, and neither does what follows the sign. -/
theorem major?_raised?_leading_zeros :
    raised? "0007.0.3-ea.2" 17 = some "17" ∧ major? "17" = some 17 ∧ raised? "17" 11 = none := by
  have hraised : raised? "0007.0.3-ea.2" 17 = some "17" := by decide
  have hwritten := (major?_raised?_written "0007.0.3-ea.2" 17).2.2 "17" hraised
  exact ⟨hraised, hwritten.1, hwritten.2 11 (by decide)⟩

end Version

end WorkflowRecipes
