import WorkflowRecipes.Amendment.Secret
import WorkflowRecipes.Proofs.Text.Occurrences

/-!
# Expressions for secrets

A reference to a secret is its name behind `secrets.` between the braces of an expression, with
blanks inside the braces or without. The name may be any text. Where it is a word, that is without
dollar signs, closing braces and blanks, two references in a text are the same or stand apart, so
that each can be replaced by itself.

Results:
1. `rest?_eq_some_iff`, `isWhole_iff`: what is recognized as a reference.
2. `reference_apart`: references in a text stand apart.
3. `replaced_iff`: replacing puts the new text in the place of each reference and keeps the rest.
4. `replaceFrom_around_other`: references to other secrets are kept.
5. `not_mentions_replaceFrom`: a secret that gave way to another one is not mentioned any more.
-/

namespace WorkflowRecipes.SecretReference

/-! ## References -/

/-- A text is a reference to the secret with a name. -/
def IsReference (name text : List Char) : Prop :=
  ∃ left right : List Char, (∀ c ∈ left, Text.isBlank c = true) ∧
    (∀ c ∈ right, Text.isBlank c = true) ∧
      text = "$\x7b\x7b".toList ++
        (left ++ ("secrets.".toList ++ (name ++ (right ++ "\x7d\x7d".toList))))

/-- A text holds a reference to the secret with a name. -/
def Mentions (name text : List Char) : Prop := ∃ ref, IsReference name ref ∧ ref <:+: text

/-- A name without dollar signs, closing braces and blanks. -/
def IsWord (name : List Char) : Prop := ∀ c ∈ name, c ≠ '$' ∧ c ≠ '\x7d' ∧ Text.isBlank c = false

/-- A name of ASCII letters, digits and underscores. -/
def IsSecretName (name : String) : Prop := ∀ c ∈ name.toList, c.isAlphanum = true ∨ c = '_'

instance (name : String) : Decidable (IsSecretName name) :=
  List.decidableBAll (fun c : Char => c.isAlphanum = true ∨ c = '_') name.toList

variable {name name' old new ref ref' text result before after before' after' : List Char}

theorem isBlank_eq_false_of_isAlphanum {c : Char} (h : c.isAlphanum = true) :
    Text.isBlank c = false := by
  have hclass : (decide ('A'.val ≤ c.val ∧ c.val ≤ 'Z'.val) ||
      (decide ('a'.val ≤ c.val) && decide (c.val ≤ 'z'.val)) ||
        (decide ('0'.val ≤ c.val) && decide (c.val ≤ '9'.val))) = true := h
  simp only [Bool.or_eq_true, Bool.and_eq_true, decide_eq_true_eq, UInt32.le_iff_toNat_le] at hclass
  change ((65 ≤ c.toNat ∧ c.toNat ≤ 90) ∨ (97 ≤ c.toNat ∧ c.toNat ≤ 122)) ∨
    (48 ≤ c.toNat ∧ c.toNat ≤ 57) at hclass
  unfold Text.isBlank
  simp only [Bool.or_eq_false_iff, Bool.and_eq_false_iff, decide_eq_false_iff_not,
    beq_eq_false_iff_ne]
  omega

theorem IsSecretName.isWord {name : String} (h : IsSecretName name) : IsWord name.toList := by
  intro c hc
  rcases h c hc with hc | rfl
  · refine ⟨?_, ?_, isBlank_eq_false_of_isAlphanum hc⟩ <;>
      exact fun h => absurd (h ▸ hc) (by decide)
  · decide

theorem written_isReference (name : String) : IsReference name.toList (written name).toList := by
  have hspace : ∀ c ∈ [' '], Text.isBlank c = true := List.forall_mem_singleton.mpr (by decide)
  refine ⟨[' '], [' '], hspace, hspace, ?_⟩
  simp [written]

theorem head?_secrets (text : List Char) :
    ∃ c ∈ ("secrets.".toList ++ text).head?, Text.isBlank c = false :=
  ⟨'s', rfl, by decide⟩

theorem head?_closing (text : List Char) :
    ∃ c ∈ ("\x7d\x7d".toList ++ text).head?, Text.isBlank c = false :=
  ⟨'\x7d', rfl, by decide⟩

/-- What a text that starts with a reference goes on with. -/
theorem rest?_eq_some_iff : rest? name text = some after ↔
    ∃ ref, IsReference name ref ∧ text = ref ++ after := by
  constructor
  · intro h
    obtain ⟨inner, hinner, h⟩ := Option.bind_eq_some_iff.mp h
    obtain ⟨behind, hbehind, h⟩ := Option.bind_eq_some_iff.mp h
    obtain ⟨left, hleft, heqleft⟩ := Text.exists_trimStart inner
    obtain ⟨right, hright, heqright⟩ := Text.exists_trimStart behind
    rw [Text.dropPrefix?_eq_some_iff] at hinner hbehind h
    refine ⟨_, ⟨left, right, hleft, hright, rfl⟩, ?_⟩
    rw [hinner, heqleft, hbehind, heqright, h]
    simp only [List.append_assoc]
  · rintro ⟨ref, ⟨left, right, hleft, hright, rfl⟩, rfl⟩
    simp only [List.append_assoc]
    refine Option.bind_eq_some_iff.mpr ⟨_, Text.dropPrefix?_eq_some_iff.mpr rfl, ?_⟩
    rw [Text.trimStart_append hleft (head?_secrets _), ← List.append_assoc "secrets.".toList]
    refine Option.bind_eq_some_iff.mpr ⟨_, Text.dropPrefix?_eq_some_iff.mpr rfl, ?_⟩
    rw [Text.trimStart_append hright (head?_closing _), Text.dropPrefix?_eq_some_iff]

theorem rest?_append (href : IsReference name ref) (after : List Char) :
    rest? name (ref ++ after) = some after :=
  rest?_eq_some_iff.mpr ⟨ref, href, rfl⟩

/-- A string is the expression for a secret and nothing else if and only if it is a reference. -/
theorem isWhole_iff {name text : String} :
    isWhole name text = true ↔ IsReference name.toList text.toList := by
  rw [isWhole, beq_iff_eq, rest?_eq_some_iff]
  simp

/-! ## References stand apart -/

/-- A reference starts with its only dollar sign. -/
theorem exists_eq_cons (hname : IsWord name) (href : IsReference name ref) :
    ∃ tail, ref = '$' :: tail ∧ '$' ∉ tail := by
  obtain ⟨left, right, hleft, hright, rfl⟩ := href
  have hdollar : Text.isBlank '$' = false := by decide
  have hnotleft : '$' ∉ left := fun h => by rw [hleft _ h] at hdollar; cases hdollar
  have hnotright : '$' ∉ right := fun h => by rw [hright _ h] at hdollar; cases hdollar
  have hnotname : '$' ∉ name := fun h => (hname _ h).1 rfl
  refine ⟨"\x7b\x7b".toList ++ _, rfl, ?_⟩
  simp only [List.mem_append, hnotleft, hnotname, hnotright, false_or, not_or]
  decide

/-- The name in a reference ends at the first blank or closing brace. -/
theorem takeWhile_name (hname : IsWord name) {right : List Char}
    (hright : ∀ c ∈ right, Text.isBlank c = true) :
    (name ++ (right ++ ("\x7d\x7d".toList ++ after))).takeWhile
      (fun c => !Text.isBlank c && c != '\x7d') = name := by
  rw [List.takeWhile_append_of_pos fun c hc => by simp [hname c hc]]
  cases right with
  | nil => exact List.append_nil name
  | cons c right =>
    rw [List.cons_append, List.takeWhile_cons_of_neg (by simp [hright c List.mem_cons_self]),
      List.append_nil]

/-- Two references that a text starts with are the same. -/
theorem reference_unique (hname : IsWord name) (hname' : IsWord name') (href : IsReference name ref)
    (href' : IsReference name' ref') (heq : ref ++ after = ref' ++ after') :
    name = name' ∧ ref = ref' ∧ after = after' := by
  have hsame : name = name' := by
    obtain ⟨left, right, hleft, hright, rfl⟩ := href
    obtain ⟨left', right', hleft', hright', rfl⟩ := href'
    simp only [List.append_assoc] at heq
    have hinner := congrArg Text.trimStart (List.append_cancel_left heq)
    rw [Text.trimStart_append hleft (head?_secrets _),
      Text.trimStart_append hleft' (head?_secrets _)] at hinner
    rw [← takeWhile_name hname hright, List.append_cancel_left hinner,
      takeWhile_name hname' hright']
  subst hsame
  have hrest := rest?_append href after
  rw [heq, rest?_append href', Option.some.injEq] at hrest
  rw [hrest] at heq
  exact ⟨rfl, List.append_cancel_right heq, hrest.symm⟩

/-- A reference behind the start of a text stands behind one that the text starts with. -/
theorem before_eq_nil_or (hname : IsWord name) (hname' : IsWord name')
    (href : IsReference name ref) (href' : IsReference name' ref')
    (heq : ref ++ after = before' ++ (ref' ++ after')) :
    before' = [] ∨ ∃ between, before' = ref ++ between ∧ after = between ++ (ref' ++ after') := by
  obtain ⟨tail, rfl, htail⟩ := exists_eq_cons hname href
  obtain ⟨tail', rfl, -⟩ := exists_eq_cons hname' href'
  rcases List.append_eq_append_iff.mp heq with ⟨between, hbefore, hafter⟩ | ⟨part, href, hrest⟩
  · exact .inr ⟨between, hbefore, hafter⟩
  · cases part with
    | nil =>
      rw [List.append_nil] at href
      exact .inr ⟨[], by rw [href, List.append_nil], hrest.symm⟩
    | cons first part =>
      rw [List.cons_append, List.cons_append, List.cons.injEq] at hrest
      cases before' with
      | nil => exact .inl rfl
      | cons c before' =>
        rw [List.cons_append, List.cons.injEq] at href
        refine absurd ?_ htail
        rw [href.2, hrest.1]
        exact List.mem_append_right _ List.mem_cons_self

/-- Two references in a text are the same, or one of them stands behind the other. -/
theorem reference_apart (hname : IsWord name) (hname' : IsWord name') (href : IsReference name ref)
    (href' : IsReference name' ref')
    (heq : before ++ (ref ++ after) = before' ++ (ref' ++ after')) :
    (name = name' ∧ before = before' ∧ ref = ref' ∧ after = after') ∨
      (∃ between, before' = before ++ (ref ++ between) ∧ after = between ++ (ref' ++ after')) ∨
      ∃ between, before = before' ++ (ref' ++ between) ∧ after' = between ++ (ref ++ after) := by
  rcases List.append_eq_append_iff.mp heq with ⟨part, rfl, hrest⟩ | ⟨part, rfl, hrest⟩
  · rcases before_eq_nil_or hname hname' href href' hrest with rfl | ⟨between, rfl, hafter⟩
    · obtain ⟨hsame, heqref, heqafter⟩ := reference_unique hname hname' href href' hrest
      exact .inl ⟨hsame, (List.append_nil before).symm, heqref, heqafter⟩
    · exact .inr (.inl ⟨between, rfl, hafter⟩)
  · rcases before_eq_nil_or hname' hname href' href hrest with rfl | ⟨between, rfl, hafter⟩
    · obtain ⟨hsame, heqref, heqafter⟩ := reference_unique hname' hname href' href hrest
      exact .inl ⟨hsame.symm, List.append_nil before', heqref.symm, heqafter.symm⟩
    · exact .inr (.inr ⟨between, rfl, hafter⟩)

/-! ## Replacing -/

theorem replaceFrom_skip (name new : List Char) (skip : Nat) (text : List Char) :
    replaceFrom name new skip text = replaceFrom name new 0 (text.drop skip) := by
  induction text generalizing skip with
  | nil => cases skip <;> rfl
  | cons c text ih =>
    cases skip with
    | zero => rfl
    | succ skip => exact ih skip

theorem replaceFrom_reference (href : IsReference name ref) (new after : List Char) :
    replaceFrom name new 0 (ref ++ after) = new ++ replaceFrom name new 0 after := by
  have hrest := rest?_append href after
  cases ref with
  | nil =>
    obtain ⟨left, right, -, -, heq⟩ := href
    cases heq
  | cons c tail =>
    rw [List.cons_append] at hrest ⊢
    rw [replaceFrom, hrest]
    dsimp only
    rw [replaceFrom_skip, List.length_append, Nat.add_sub_cancel, List.drop_left]

theorem replaceFrom_cons {c : Char} (h : rest? name (c :: text) = none) (new : List Char) :
    replaceFrom name new 0 (c :: text) = c :: replaceFrom name new 0 text := by
  rw [replaceFrom, h]

theorem rest?_eq_none_iff : rest? name text = none ↔
    ∀ ref after, IsReference name ref → text ≠ ref ++ after := by
  rw [Option.eq_none_iff_forall_not_mem]
  constructor
  · intro h ref after href heq
    exact h after (rest?_eq_some_iff.mpr ⟨ref, href, heq⟩)
  · intro h after hafter
    obtain ⟨ref, href, heq⟩ := rest?_eq_some_iff.mp hafter
    exact h ref after href heq

/-- A text without references stays as it is. -/
theorem replaceFrom_of_not_mentions (h : ¬ Mentions name text) (new : List Char) :
    replaceFrom name new 0 text = text := by
  induction text with
  | nil => rfl
  | cons c text ih =>
    rw [replaceFrom_cons, ih]
    · rintro ⟨ref, href, hinfix⟩
      exact h ⟨ref, href, List.infix_cons hinfix⟩
    · refine rest?_eq_none_iff.mpr fun ref after href heq => h ⟨ref, href, ?_⟩
      rw [heq]
      exact (List.prefix_append ref after).isInfix

/-- What is made of a text goes for its parts where a reference stands between them. -/
theorem replaceFrom_append {middle : List Char} (hold : IsWord old) (hname : IsWord name)
    (href : IsReference name ref)
    (hmiddle : ∀ after, replaceFrom old new 0 (ref ++ after) =
      middle ++ replaceFrom old new 0 after) (before after : List Char) :
    replaceFrom old new 0 (before ++ (ref ++ after)) =
      replaceFrom old new 0 before ++ (middle ++ replaceFrom old new 0 after) := by
  -- A reference that is replaced takes more than one character away from the front.
  induction hlength : before.length using Nat.strongRecOn generalizing before with
  | ind length ih =>
    cases before with
    | nil => exact hmiddle after
    | cons c before =>
      cases hrest : rest? old (c :: before ++ (ref ++ after)) with
      | some rest =>
        obtain ⟨first, hfirst, heq⟩ := rest?_eq_some_iff.mp hrest
        rcases before_eq_nil_or hold hname hfirst href heq.symm with h | ⟨between, h, rfl⟩
        · cases h
        · have hshorter : between.length < length := by
            obtain ⟨tail, rfl, -⟩ := exists_eq_cons hold hfirst
            rw [← hlength, h, List.length_append, List.length_cons]
            omega
          rw [h, List.append_assoc, replaceFrom_reference hfirst, replaceFrom_reference hfirst,
            ih _ hshorter between rfl, List.append_assoc]
      | none =>
        have hshort : rest? old (c :: before) = none := by
          refine rest?_eq_none_iff.mpr fun first rest hfirst heq => ?_
          refine rest?_eq_none_iff.mp hrest first (rest ++ (ref ++ after)) hfirst ?_
          rw [heq, List.append_assoc]
        rw [List.cons_append] at hrest ⊢
        rw [replaceFrom_cons hrest, replaceFrom_cons hshort,
          ih before.length (by rw [← hlength]; exact Nat.lt_succ_self _) before rfl]
        rfl

/-- A reference gives way to the new text, and the texts around it are taken by themselves. -/
theorem replaceFrom_around (hold : IsWord old) (href : IsReference old ref)
    (new before after : List Char) : replaceFrom old new 0 (before ++ (ref ++ after)) =
      replaceFrom old new 0 before ++ (new ++ replaceFrom old new 0 after) :=
  replaceFrom_append hold hold href (replaceFrom_reference href new) before after

/-- A text without dollar signs stays as it is. -/
theorem replaceFrom_of_not_mem (hold : IsWord old) (h : '$' ∉ text) (new after : List Char) :
    replaceFrom old new 0 (text ++ after) = text ++ replaceFrom old new 0 after := by
  induction text with
  | nil => rfl
  | cons c text ih =>
    rw [List.mem_cons, not_or] at h
    rw [List.cons_append, replaceFrom_cons, ih h.2]
    · rfl
    · refine rest?_eq_none_iff.mpr fun ref rest href heq => ?_
      obtain ⟨tail, rfl, -⟩ := exists_eq_cons hold href
      exact h.1 (List.cons.inj heq).1.symm

/-- A reference to another secret is kept, and the texts around it are taken by themselves. -/
theorem replaceFrom_around_other (hold : IsWord old) (hname : IsWord name) (hne : name ≠ old)
    (href : IsReference name ref) (new before after : List Char) :
    replaceFrom old new 0 (before ++ (ref ++ after)) =
      replaceFrom old new 0 before ++ (ref ++ replaceFrom old new 0 after) := by
  refine replaceFrom_append hold hname href (fun after => ?_) before after
  have hrest : rest? old (ref ++ after) = none := by
    refine rest?_eq_none_iff.mpr fun first rest hfirst heq => ?_
    exact hne (reference_unique hname hold href hfirst heq).1
  obtain ⟨tail, rfl, htail⟩ := exists_eq_cons hname href
  rw [List.cons_append] at hrest ⊢
  rw [replaceFrom_cons hrest, replaceFrom_of_not_mem hold htail]
  rfl

/-! ## What replacing comes to -/

/-- A text comes from another by a new text in the place of each reference to a secret. -/
inductive Replaced (old new : List Char) : List Char → List Char → Prop
  | free {text : List Char} : ¬ Mentions old text → Replaced old new text text
  | around {ref before before' after after' : List Char} : IsReference old ref →
      Replaced old new before before' → Replaced old new after after' →
        Replaced old new (before ++ (ref ++ after)) (before' ++ (new ++ after'))

/-- Each reference gives way to the new text, in whatever order they are taken, and every other
character is kept. -/
theorem replaced_iff (hold : IsWord old) :
    Replaced old new text result ↔ result = replaceFrom old new 0 text := by
  constructor
  · intro h
    induction h with
    | free hfree => exact (replaceFrom_of_not_mentions hfree new).symm
    | around href _ _ hbefore hafter => rw [replaceFrom_around hold href, ← hbefore, ← hafter]
  · rintro rfl
    induction hlength : text.length using Nat.strongRecOn generalizing text with
    | ind length ih =>
      by_cases hmentions : Mentions old text
      · obtain ⟨ref, href, before, after, rfl⟩ := hmentions
        have hpositive : 0 < ref.length := by
          obtain ⟨tail, rfl, -⟩ := exists_eq_cons hold href
          exact Nat.succ_pos _
        rw [List.append_assoc, List.length_append, List.length_append] at hlength
        rw [List.append_assoc, replaceFrom_around hold href]
        exact .around href (ih before.length (by omega) rfl) (ih after.length (by omega) rfl)
      · rw [replaceFrom_of_not_mentions hmentions]
        exact .free hmentions

/-- A secret that gives way to another one is not mentioned any more. -/
theorem not_mentions_of_replaced (hold : IsWord old) (hname : IsWord name) (hne : old ≠ name)
    (hnew : IsReference name new) (h : Replaced old new text result) : ¬ Mentions old result := by
  induction h with
  | free hfree => exact hfree
  | around _ _ _ hbefore hafter =>
    rintro ⟨ref, href, first, last, heq⟩
    rw [List.append_assoc] at heq
    -- A reference to the old secret would stand in what was made of one of the two sides.
    rcases reference_apart hold hname href hnew heq with
      ⟨hsame, -⟩ | ⟨between, rfl, -⟩ | ⟨between, -, rfl⟩
    · exact hne hsame
    · exact hbefore ⟨ref, href, first, between, List.append_assoc _ _ _⟩
    · exact hafter ⟨ref, href, between, last, List.append_assoc _ _ _⟩

theorem not_mentions_replaceFrom (hold : IsWord old) (hname : IsWord name) (hne : old ≠ name)
    (hnew : IsReference name new) (text : List Char) :
    ¬ Mentions old (replaceFrom old new 0 text) :=
  not_mentions_of_replaced hold hname hne hnew ((replaced_iff hold).mpr rfl)

end WorkflowRecipes.SecretReference
