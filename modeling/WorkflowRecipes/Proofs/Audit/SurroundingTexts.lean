import Mathlib
import WorkflowRecipes.Audit.Permission
import WorkflowRecipes.Audit.Publishing
import WorkflowRecipes.Proofs.Audit.ForeignExpressions
import WorkflowRecipes.Proofs.Pattern.Stretches

/-!
# Texts around what is found

What an audit finds in a text it finds in every text around it, so nothing that is written before or
behind can hide it. For patterns that is so because none of them looks around. Expressions are read
from the left, and one that is left open before the text takes in what follows; but it takes in all
of it up to the next braces, so what strangers have a part in stays in what is read.

Results:
1. `Pattern.isIn_iff_alternatives`: of the alternatives of a pattern, one must be in a text.
2. `BotCondition.isSome_problem?_around`, `Taint.HoldsForeign.around`: conditions that trust a bot,
   and what strangers have a part in.
3. `found_around`: all that is found, patterns included.
-/

namespace WorkflowRecipes

/-! ## Patterns -/

namespace Pattern

variable {pattern : Pattern}

/-- The patterns of which a pattern describes the stretches. -/
def alternatives : Pattern → List Pattern
  | .alt first second => alternatives first ++ alternatives second
  | pattern => [pattern]

theorem covers_iff_alternatives {before stretch after : List Char} :
    pattern.Covers before stretch after ↔
      ∃ one ∈ pattern.alternatives, one.Covers before stretch after := by
  induction pattern with
  | alt first second ihFirst ihSecond =>
    simp only [alternatives, List.mem_append, or_and_right, exists_or, ← ihFirst, ← ihSecond]
    rfl
  | _ => simp [alternatives]

theorem occursIn_iff_alternatives {text : List Char} :
    pattern.occursIn text = true ↔ ∃ one ∈ pattern.alternatives, one.occursIn text = true := by
  simp only [occursIn_iff_covers]
  constructor
  · rintro ⟨before, stretch, after, htext, hcovers⟩
    obtain ⟨one, hone, hcovers⟩ := covers_iff_alternatives.mp hcovers
    exact ⟨one, hone, before, stretch, after, htext, hcovers⟩
  · rintro ⟨one, hone, before, stretch, after, htext, hcovers⟩
    exact ⟨before, stretch, after, htext, covers_iff_alternatives.mpr ⟨one, hone, hcovers⟩⟩

theorem isIn_iff_alternatives {text : String} :
    pattern.isIn text = true ↔ ∃ one ∈ pattern.alternatives, one.isIn text = true :=
  occursIn_iff_alternatives

theorem IsFree.of_mem_alternatives (h : pattern.IsFree) :
    ∀ one ∈ pattern.alternatives, one.IsFree := by
  induction pattern with
  | alt first second ihFirst ihSecond =>
    exact List.forall_mem_append.mpr ⟨ihFirst h.1, ihSecond h.2⟩
  | _ => exact List.forall_mem_singleton.mpr h

end Pattern

theorem holds_around {text part : String} (h : holds text part = true) (before after : String) :
    holds (before ++ text ++ after) part = true := by
  rw [holds_iff] at h ⊢
  rw [String.toList_append, String.toList_append]
  exact h.trans (List.infix_append before.toList text.toList after.toList)

open Pattern

/-! ## The patterns of the audits -/

theorem Obfuscation.isFree_trick : trick.IsFree := by
  refine isFree_anyOf (by simp) fun pattern hpattern => ?_
  simp only [List.mem_cons, List.not_mem_nil, or_false] at hpattern
  obtain rfl | rfl := hpattern
  · trivial
  · simp

namespace TrustedPublishing

theorem isFree_blanks : blanks.IsFree := trivial

theorem isFree_anything : anything.IsFree := ⟨trivial, isFree_blanks⟩

theorem isFree_command : command.IsFree := by
  refine isFree_anyOf (by simp [isFree_blanks, isFree_anything]) fun pattern hpattern => ?_
  simp only [List.mem_cons, List.not_mem_nil, or_false] at hpattern
  obtain rfl | rfl | rfl | rfl | rfl | rfl | rfl | rfl := hpattern <;>
    simp [isFree_blanks, isFree_anything]

end TrustedPublishing

namespace BotCondition

theorem isFree_equals {property name : Pattern} (hproperty : property.IsFree)
    (hname : name.IsFree) : (equals property name).IsFree := by
  have hblanks : blanks.IsFree := trivial
  have hquote : quote.IsFree := trivial
  simp [equals, hproperty, hname, hblanks, hquote]

theorem isFree_namesBot : namesBot.IsFree := by
  have hunquoted : unquoted.IsFree := trivial
  have hbot : (unquoted ++ text "[bot]").IsFree := ⟨hunquoted, isFree_text "[bot]"⟩
  refine isFree_anyOf (isFree_equals (isFree_text _) hbot) fun pattern hpattern => ?_
  simp only [List.mem_cons, List.not_mem_nil, or_false] at hpattern
  obtain rfl | rfl | rfl := hpattern
  · exact isFree_equals (isFree_text _) hbot
  · exact isFree_equals (isFree_text _) hbot
  · exact isFree_equals (isFree_text _) ⟨⟨hunquoted, isFree_text "bot"⟩, hunquoted⟩

theorem isFree_containsBot : containsBot.IsFree := by
  have hblanks : blanks.IsFree := trivial
  have hquote : quote.IsFree := trivial
  simp [containsBot, hblanks, hquote]

theorem isFree_quotedNumber : quotedNumber.IsFree :=
  isFree_equals (by simp) (isFree_many1.mpr (isFree_one _))

theorem isSome_problem?_iff {condition : String} : (problem? condition).isSome = true ↔
    namesBot.isIn condition = true ∨ containsBot.isIn condition = true ∨
      quotedNumber.isIn condition = true ∧ holdsKnownBot condition = true := by
  rw [← Bool.and_eq_true]
  unfold problem?
  split
  · next h => simp [h]
  · next hnames =>
    split
    · next h => simp [h]
    · next hcontains => split <;> simp_all

theorem holdsKnownBot_around {condition : String} (h : holdsKnownBot condition = true)
    (before after : String) : holdsKnownBot (before ++ condition ++ after) = true := by
  obtain ⟨id, hid, hholds⟩ := List.any_eq_true.mp h
  refine List.any_eq_true.mpr ⟨id, hid, ?_⟩
  rw [Bool.or_eq_true] at hholds ⊢
  exact hholds.imp (holds_around · before after) (holds_around · before after)

/-- A condition that trusts a bot is found whatever other conditions stand around it. -/
theorem isSome_problem?_around {condition : String} (h : (problem? condition).isSome = true)
    (before after : String) : (problem? (before ++ condition ++ after)).isSome = true := by
  rw [isSome_problem?_iff] at h ⊢
  obtain hnames | hcontains | ⟨hnumber, hknown⟩ := h
  · exact .inl (isIn_append isFree_namesBot hnames before after)
  · exact .inr (.inl (isIn_append isFree_containsBot hcontains before after))
  · exact .inr (.inr ⟨isIn_append isFree_quotedNumber hnumber before after,
      holdsKnownBot_around hknown before after⟩)

end BotCondition

/-! ## What strangers have a part in -/

/-- An expression that strangers have a part in is one in every text around. -/
theorem Taint.HoldsForeign.around {text : String} (h : HoldsForeign text)
    (before after : String) : HoldsForeign (before ++ text ++ after) := by
  obtain ⟨left, body, right, htext, hbrace, hforeign⟩ := h
  refine ⟨before.toList ++ left, body, right ++ after.toList, ?_, hbrace, hforeign⟩
  simp only [String.toList_append, htext, List.append_assoc]

/-- What is found in a text is found in every text around it: what strangers have a part in,
conditions that trust a bot, tricks in expressions, and each of the commands that publish. -/
theorem found_around (before text after : String) :
    ((Taint.foreignInput? text).isSome = true →
      (Taint.foreignInput? (before ++ text ++ after)).isSome = true) ∧
    ((BotCondition.problem? text).isSome = true →
      (BotCondition.problem? (before ++ text ++ after)).isSome = true) ∧
    (Obfuscation.trick.isIn text = true →
      Obfuscation.trick.isIn (before ++ text ++ after) = true) ∧
    (∀ command ∈ TrustedPublishing.command.alternatives, command.isIn text = true →
      command.isIn (before ++ text ++ after) = true) ∧
    (TrustedPublishing.command.isIn text = true ↔
      ∃ command ∈ TrustedPublishing.command.alternatives, command.isIn text = true) := by
  refine ⟨fun h => ?_, fun h => BotCondition.isSome_problem?_around h before after,
    fun h => isIn_append Obfuscation.isFree_trick h before after, fun command hcommand h => ?_,
    isIn_iff_alternatives⟩
  · rw [Taint.isSome_foreignInput?_iff] at h ⊢
    exact h.around before after
  · have hfree := TrustedPublishing.isFree_command.of_mem_alternatives command hcommand
    exact isIn_append hfree h before after

/-- The pattern for one of the commands. -/
def npmPublish : Pattern := text "npm" ++ TrustedPublishing.blanks ++ text "publish"

/-- Behind an expression that is left open, all is still found. -/
theorem found_around_openExpression :
    let before := "$\x7b\x7b "
    let after := " \x7d\x7d"
    let branch := "$\x7b\x7b github.head_ref \x7d\x7d"
    let condition := "github.actor == 'a[bot]'"
    ((Taint.foreignInput? branch).isSome = true ∧
      (Taint.foreignInput? (before ++ branch ++ after)).isSome = true) ∧
    ((BotCondition.problem? condition).isSome = true ∧
      (BotCondition.problem? (before ++ condition ++ after)).isSome = true) ∧
    (Obfuscation.trick.isIn "''" = true ∧
      Obfuscation.trick.isIn (before ++ "''" ++ after) = true) ∧
    npmPublish ∈ TrustedPublishing.command.alternatives ∧ npmPublish.isIn "npm publish" = true ∧
      npmPublish.isIn (before ++ "npm publish" ++ after) = true := by
  intro before after branch condition
  have hforeign : (Taint.foreignInput? branch).isSome = true := by decide +kernel
  have hbot : (BotCondition.problem? condition).isSome = true := by cbv
  have htrick : Obfuscation.trick.isIn "''" = true := by cbv
  have hcommand : npmPublish.isIn "npm publish" = true := by decide +kernel
  have hmem : npmPublish ∈ TrustedPublishing.command.alternatives :=
    List.mem_cons_of_mem _ (List.mem_cons_of_mem _ List.mem_cons_self)
  exact ⟨⟨hforeign, (found_around before branch after).1 hforeign⟩,
    ⟨hbot, (found_around before condition after).2.1 hbot⟩,
    ⟨htrick, (found_around before "''" after).2.2.1 htrick⟩, hmem, hcommand,
    (found_around before "npm publish" after).2.2.2.1 npmPublish hmem hcommand⟩

end WorkflowRecipes
