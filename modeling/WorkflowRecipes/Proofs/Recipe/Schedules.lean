import WorkflowRecipes.Cron
import WorkflowRecipes.Proofs.Text.Occurrences
import WorkflowRecipes.Proofs.Text.Versions
import WorkflowRecipes.Proofs.Text.Words

/-!
# What schedules become

A macro becomes an expression with numbers in their ranges and names from the lists, whatever the
source of random numbers is. Any other schedule that is accepted stays as it is, but for the blanks
around it. Either way there are five fields, and what there is would be accepted again.

Results:
1. `expands_resolve`: what a schedule becomes.
2. `Expands.settled`: that has five fields, is accepted and is no macro.
-/

namespace WorkflowRecipes.Cron

variable {name text expression : String}

/-! ## What is meant -/

/-- What becomes of a schedule without blanks around it. -/
inductive Expands (name : String) : String → Prop
  | plain : isMacro name = false → Expands name name
  | hourly {minute : Nat} : name = "@hourly" → minute < 60 →
      Expands name (fields (toString minute) "*" "*" "*" "*")
  | daily {minute hour : Nat} : name = "@daily" → minute < 60 → hour < 24 →
      Expands name (fields (toString minute) (toString hour) "*" "*" "*")
  | weekly {minute hour : Nat} {weekday : String} : name = "@weekly" → minute < 60 → hour < 24 →
      weekday ∈ weekdays →
      Expands name (fields (toString minute) (toString hour) "*" "*" weekday)
  | weekdays {minute hour : Nat} : name = "@weekdays" → minute < 60 → hour < 24 →
      Expands name (fields (toString minute) (toString hour) "*" "*" "1-5")
  | weekends {minute hour : Nat} : name = "@weekends" → minute < 60 → hour < 24 →
      Expands name (fields (toString minute) (toString hour) "*" "*" "sat,sun")
  | monthly {minute hour day : Nat} : name = "@monthly" → minute < 60 → hour < 24 →
      1 ≤ day → day ≤ 28 →
      Expands name (fields (toString minute) (toString hour) (toString day) "*" "*")
  | yearly {minute hour day : Nat} {month : String} : name = "@yearly" → minute < 60 →
      hour < 24 → 1 ≤ day → day ≤ 28 → month ∈ months →
      Expands name (fields (toString minute) (toString hour) (toString day) month "*")

/-- An expression that needs no more work: it has five fields, is accepted and is no macro. -/
structure Settled (expression : String) : Prop where
  fields : (Text.words expression.toList).length = 5
  accepted : problem? expression = none
  unnamed : isMacro expression = false

/-! ## Drawing -/

section Drawing

open RandomSource

variable {σ : Type} [RandomSource σ]

theorem pick_mem {names : List String} (h : names ≠ []) (source : σ) :
    (pick names source).1 ∈ names := by
  have hlt : (below source 64 names.length).1 < names.length :=
    below_lt source 64 (List.length_pos_iff.mpr h)
  show names.getD (below source 64 names.length).1 "" ∈ names
  rw [List.getD_eq_getElem?_getD, List.getElem?_eq_getElem hlt]
  exact List.getElem_mem hlt

theorem exists_pickDay (source : σ) :
    ∃ day, 1 ≤ day ∧ day ≤ 28 ∧ (pickDay source).1 = toString day :=
  ⟨_, Nat.le_add_left 1 _, below_lt source 32 (by decide), rfl⟩

/-- A macro becomes an expression, with any source, and any other text stays. -/
theorem expands_resolve (name : String) (source : σ) : Expands name (resolve name source).1 := by
  have hminute : (below source 32 60).1 < 60 := below_lt source 32 (by decide)
  have hhour : (below (below source 32 60).2 32 24).1 < 24 := below_lt _ 32 (by decide)
  unfold resolve
  dsimp only
  split
  · exact .hourly rfl hminute
  · exact .daily rfl hminute hhour
  · exact .weekly rfl hminute hhour (pick_mem (by decide) _)
  · exact .weekdays rfl hminute hhour
  · exact .weekends rfl hminute hhour
  · obtain ⟨day, hone, hday, heq⟩ := exists_pickDay (below (below source 32 60).2 32 24).2
    rw [heq]
    exact .monthly rfl hminute hhour hone hday
  · obtain ⟨day, hone, hday, heq⟩ := exists_pickDay (below (below source 32 60).2 32 24).2
    rw [heq]
    exact .yearly rfl hminute hhour hone hday (pick_mem (by decide) _)
  · next h₁ h₂ h₃ h₄ h₅ h₆ h₇ =>
    refine .plain (Bool.eq_false_iff.mpr fun h => ?_)
    have hmem : name ∈ macroNames := List.contains_iff_mem.mp h
    simp only [macroNames, List.mem_cons, List.not_mem_nil, or_false] at hmem
    exact hmem.elim h₁ fun h => h.elim h₂ fun h => h.elim h₃ fun h => h.elim h₄ fun h =>
      h.elim h₅ fun h => h.elim h₆ h₇

/-- A stream of zeros gives the first of everything. -/
example : (resolve "@yearly" ({} : Draws)).1 = "0 0 1 jan *" := by decide

end Drawing

/-! ## Five fields -/

theorem isBlank_of_isDigit {c : Char} (h : c.isDigit = true) : Text.isBlank c = false := by
  have hrange : 48 ≤ c.toNat ∧ c.toNat ≤ 57 := by
    simpa [Char.isDigit, UInt32.le_iff_toNat_le] using h
  simp only [Text.isBlank]
  grind

theorem isDigit_of_mem_toString {n : Nat} : ∀ c ∈ (toString n).toList, c.isDigit = true := by
  rw [Text.toList_toString]
  exact fun c hc => Nat.isDigit_of_mem_toDigits (by decide) (by decide) hc

theorem isWord_toString (n : Nat) : Text.IsWord (toString n).toList := by
  refine ⟨?_, fun c hc => isBlank_of_isDigit (isDigit_of_mem_toString c hc)⟩
  rw [Text.toList_toString]
  exact Nat.toDigits_ne_nil

/-- What starts with a number does not start like a macro. -/
theorem startsWith_sign {minute : Nat} {rest : List Char}
    (h : expression.toList = (toString minute).toList ++ rest) :
    startsWith expression "@" = false := by
  refine Bool.eq_false_iff.mpr fun hsign => ?_
  have hstart : ['@'] <+: (toString minute).toList ++ rest := h ▸ Text.startsWith_iff.mp hsign
  have hne := (isWord_toString minute).1
  cases hminute : (toString minute).toList with
  | nil => exact hne hminute
  | cons c digits =>
    rw [hminute, List.cons_append, List.cons_prefix_cons] at hstart
    have hdigit : '@'.isDigit = true := by
      rw [hstart.1]
      exact isDigit_of_mem_toString c (by rw [hminute]; exact List.mem_cons_self)
    exact absurd hdigit (by decide)

theorem isWord_of_mem_weekdays : ∀ weekday ∈ weekdays, Text.IsWord weekday.toList := by
  decide

theorem isWord_of_mem_months : ∀ month ∈ months, Text.IsWord month.toList := by decide

theorem toList_fields (minute hour day month weekday : String) :
    (fields minute hour day month weekday).toList =
      Text.join [' '] ([minute, hour, day, month, weekday].map String.toList) := by
  have hfields : fields minute hour day month weekday =
      minute ++ " " ++ hour ++ " " ++ day ++ " " ++ month ++ " " ++ weekday := rfl
  simp [hfields, Text.join]

/-- No macro has five words. -/
theorem isMacro_of_length_words (h : (Text.words expression.toList).length = 5) :
    isMacro expression = false := by
  have hone : ∀ name ∈ macroNames, (Text.words name.toList).length ≠ 5 := by decide
  exact Bool.eq_false_iff.mpr fun hnamed => hone expression (List.contains_iff_mem.mp hnamed) h

/-- A text of five words without blanks around it is settled, unless it starts like a macro. -/
theorem settled_of_trimmed (htrim : trimmed expression = expression)
    (hsign : startsWith expression "@" = false)
    (hwords : (Text.words expression.toList).length = 5) : Settled expression := by
  have hnamed := isMacro_of_length_words hwords
  refine ⟨hwords, ?_, hnamed⟩
  simp only [problem?]
  rw [htrim, hnamed, hsign, hwords]
  rfl

theorem trimmed_trimmed (text : String) : trimmed (trimmed text) = trimmed text := by
  rw [trimmed, trimmed, String.toList_ofList, Text.trim_trim]

/-- What is accepted and is no macro is settled once the blanks around it are gone. -/
theorem settled_trimmed (h : problem? text = none) (hnamed : isMacro (trimmed text) = false) :
    Settled (trimmed text) := by
  simp only [problem?] at h
  rw [hnamed, if_neg Bool.false_ne_true] at h
  split at h
  · cases h
  · next hsign =>
    split at h
    · cases h
    · next hwords =>
      exact settled_of_trimmed (trimmed_trimmed text) (Bool.eq_false_iff.mpr hsign)
        (not_not.mp hwords)

/-- A number and four words are five settled fields. -/
theorem settled_fields (minute : Nat) {hour day month weekday : String}
    (hhour : Text.IsWord hour.toList) (hday : Text.IsWord day.toList)
    (hmonth : Text.IsWord month.toList) (hweekday : Text.IsWord weekday.toList) :
    Settled (fields (toString minute) hour day month weekday) := by
  have hwords : ∀ text ∈ [toString minute, hour, day, month, weekday].map String.toList,
      Text.IsWord text := by
    simp only [List.map_cons, List.map_nil, List.forall_mem_cons]
    exact ⟨isWord_toString minute, hhour, hday, hmonth, hweekday, nofun⟩
  have hfields := toList_fields (toString minute) hour day month weekday
  refine settled_of_trimmed ?_ ?_ ?_
  · rw [trimmed, hfields, Text.trim_join hwords, ← hfields, String.ofList_toList]
  · exact startsWith_sign (hfields.trans (List.append_assoc _ _ _))
  · rw [hfields, Text.words_join hwords]
    rfl

/-- What becomes of a schedule that is accepted is settled. -/
theorem Expands.settled (hexp : Expands (trimmed text) expression) (h : problem? text = none) :
    Settled expression := by
  have hstar : Text.IsWord "*".toList := by decide
  cases hexp with
  | plain hnamed => exact settled_trimmed h hnamed
  | hourly => exact settled_fields _ hstar hstar hstar hstar
  | daily => exact settled_fields _ (isWord_toString _) hstar hstar hstar
  | weekly _ _ _ hmem =>
    exact settled_fields _ (isWord_toString _) hstar hstar (isWord_of_mem_weekdays _ hmem)
  | weekdays => exact settled_fields _ (isWord_toString _) hstar hstar (by decide)
  | weekends => exact settled_fields _ (isWord_toString _) hstar hstar (by decide)
  | monthly => exact settled_fields _ (isWord_toString _) (isWord_toString _) hstar hstar
  | yearly _ _ _ _ _ hmem =>
    exact settled_fields _ (isWord_toString _) (isWord_toString _) (isWord_of_mem_months _ hmem)
      hstar

end WorkflowRecipes.Cron
