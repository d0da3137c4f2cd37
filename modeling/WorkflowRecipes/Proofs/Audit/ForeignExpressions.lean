import Mathlib.Data.List.TakeWhile
import WorkflowRecipes.Audit.Script
import WorkflowRecipes.Proofs.Document.Equality
import WorkflowRecipes.Proofs.Text.Occurrences
import WorkflowRecipes.Proofs.Text.Pieces

/-!
# Expressions with texts of strangers

A text is searched for expressions from the left, and what was read is passed over. Nothing is
missed that way: an expression within one that was read is read with it. But an expression is read
only if no brace stands in it, so the braces of a format hide what strangers bring.

Results:
1. `exists_infix_mem_expressionsFrom`: every expression without braces lies in one that is read.
2. `isSome_foreignInput?_iff`: something is found if and only if the text has an expression without
   braces that strangers have a part in.
3. `foreign_found_iff`: the same for the texts that the steps of a document run.
-/

namespace WorkflowRecipes.Taint

open Text

variable {text before body after rest : List Char}

/-! ## One expression -/

/-- What opens an expression. -/
def opening : List Char := "$\x7b\x7b".toList

/-- What closes an expression. -/
def closing : List Char := "\x7d\x7d".toList

theorem opening_eq : opening = ['$', '\x7b', '\x7b'] := by decide

theorem closing_eq : closing = ['\x7d', '\x7d'] := by decide

theorem not_mem_opening : '\x7d' ∉ opening := by decide

theorem expression?_eq_some_iff : expression? text = some (body, rest) ↔
    text = opening ++ body ++ closing ++ rest ∧ body ≠ [] ∧ '\x7d' ∉ body := by
  have hclosed : ∀ tail, Text.dropPrefix? "\x7d\x7d".toList tail = some rest ↔
      tail = '\x7d' :: '\x7d' :: rest := by
    intro tail
    rw [dropPrefix?_eq_some_iff, show "\x7d\x7d".toList = _ from closing_eq]
    rfl
  rw [expression?, Option.bind_eq_some_iff, closing_eq, List.append_assoc, List.append_assoc]
  dsimp only
  constructor
  · rintro ⟨inner, hinner, hbody⟩
    split at hbody
    · cases hbody
    next hne =>
    obtain ⟨last, hlast, heq⟩ := Option.map_eq_some_iff.mp hbody
    cases heq
    obtain ⟨hread, hbrace⟩ := takeWhile_eq_and_drop_eq_iff.mp ⟨rfl, (hclosed _).mp hlast⟩
    refine ⟨?_, by simpa using hne, hbrace⟩
    rw [dropPrefix?_eq_some_iff.mp hinner]
    exact congrArg (opening ++ ·) hread
  · rintro ⟨rfl, hne, hbrace⟩
    refine ⟨body ++ '\x7d' :: '\x7d' :: rest, dropPrefix?_eq_some_iff.mpr rfl, ?_⟩
    obtain ⟨htake, hdrop⟩ := takeWhile_eq_and_drop_eq_iff.mpr
      ⟨(rfl : body ++ '\x7d' :: '\x7d' :: rest = _), hbrace⟩
    rw [htake, hdrop, if_neg (by simpa using hne), (hclosed _).mpr rfl]
    rfl

/-! ## All expressions -/

theorem expressionsFrom_eq_drop (skip : Nat) (text : List Char) :
    expressionsFrom skip text = expressionsFrom 0 (text.drop skip) := by
  induction text generalizing skip with
  | nil => rw [List.drop_nil]; cases skip <;> rfl
  | cons c text ih =>
    cases skip with
    | zero => rfl
    | succ skip => exact ih skip

/-- An expression is read, and what follows it is searched on. -/
theorem expressionsFrom_of_expression? (h : expression? text = some (body, rest)) :
    expressionsFrom 0 text = body :: expressionsFrom 0 rest := by
  cases text with
  | nil => cases h
  | cons c text =>
    rw [expressionsFrom, h]
    dsimp only
    rw [expressionsFrom_eq_drop]
    obtain ⟨heq, -, -⟩ := expression?_eq_some_iff.mp h
    rw [opening_eq, List.append_assoc, List.append_assoc, List.cons_append, List.cons.injEq] at heq
    have hrest : rest <:+ text := heq.2 ▸ (List.suffix_append_of_suffix
      (List.suffix_append_of_suffix (List.suffix_append closing rest)))
    rw [← List.suffix_iff_eq_drop.mp hrest]

theorem expressionsFrom_of_none {c : Char} (h : expression? (c :: text) = none) :
    expressionsFrom 0 (c :: text) = expressionsFrom 0 text := by
  rw [expressionsFrom, h]

/-- What is read is an expression of the text, without braces. -/
theorem exists_eq_of_mem_expressionsFrom (h : body ∈ expressionsFrom 0 text) :
    ∃ before after, text = before ++ opening ++ body ++ closing ++ after ∧ '\x7d' ∉ body := by
  induction hlength : text.length using Nat.strong_induction_on generalizing text with
  | h n ih =>
    subst hlength
    cases text with
    | nil => cases h
    | cons c text =>
      cases hread : expression? (c :: text) with
      | none =>
        rw [expressionsFrom_of_none hread] at h
        obtain ⟨before, after, rfl, hbrace⟩ := ih _ (Nat.lt_succ_self _) h rfl
        exact ⟨c :: before, after, rfl, hbrace⟩
      | some found =>
        obtain ⟨first, rest⟩ := found
        obtain ⟨heq, -, hbrace⟩ := expression?_eq_some_iff.mp hread
        rw [expressionsFrom_of_expression? hread] at h
        obtain rfl | h := List.mem_cons.mp h
        · exact ⟨[], rest, heq, hbrace⟩
        · obtain ⟨before, after, rfl, hbrace⟩ := ih rest.length (by simp [heq, opening_eq]; omega) h rfl
          exact ⟨opening ++ first ++ closing ++ before, after, by rw [heq]; simp, hbrace⟩

/-- An expression lies in the first one of the text, or in what follows that one. -/
theorem infix_or_exists_of_append_eq {found : List Char} (hbody : '\x7d' ∉ body)
    (hfound : '\x7d' ∉ found)
    (h : before ++ opening ++ body ++ closing ++ after = opening ++ found ++ closing ++ rest) :
    body <:+: found ∨ ∃ between, rest = between ++ opening ++ body ++ closing ++ after := by
  have hfirst : '\x7d' ∉ opening ++ found := by simp [not_mem_opening, hfound]
  rw [closing_eq, List.append_assoc (opening ++ found), List.cons_append] at h
  by_cases hbrace : '\x7d' ∈ before
  · -- The first brace of all closes the first expression.
    right
    obtain ⟨head, tail, rfl, hhead⟩ := List.eq_append_cons_of_mem hbrace
    simp only [List.append_assoc, List.cons_append] at h
    rw [← List.append_assoc opening found] at h
    obtain ⟨-, htail⟩ := append_inj_of_not_mem hhead hfirst h
    cases tail with
    | nil => simp [opening_eq] at htail
    | cons c between =>
      refine ⟨between, ?_⟩
      simp [closing_eq] at htail ⊢
      exact htail.2.symm
  · -- The first brace of all closes both expressions.
    left
    rw [List.append_assoc, List.cons_append] at h
    obtain ⟨hboth, -⟩ := append_inj_of_not_mem (by simp [hbrace, not_mem_opening, hbody]) hfirst h
    have hlength := congrArg List.length hboth
    simp only [List.length_append] at hlength
    have hsuffix : body <:+ opening ++ found := hboth ▸ List.suffix_append _ _
    exact (List.suffix_of_suffix_length_le hsuffix (List.suffix_append _ _) (by omega)).isInfix

/-- Every expression without braces lies in one that is read. -/
theorem exists_infix_mem_expressionsFrom (hne : body ≠ []) (hbody : '\x7d' ∉ body)
    (h : text = before ++ opening ++ body ++ closing ++ after) :
    ∃ found ∈ expressionsFrom 0 text, body <:+: found := by
  induction hlength : text.length using Nat.strong_induction_on generalizing text before with
  | h n ih =>
    subst hlength
    cases text with
    | nil => simp [opening_eq] at h
    | cons c text =>
      cases hread : expression? (c :: text) with
      | none =>
        rw [expressionsFrom_of_none hread]
        cases before with
        | nil => rw [expression?_eq_some_iff.mpr ⟨h, hne, hbody⟩] at hread; cases hread
        | cons first before =>
          exact ih _ (Nat.lt_succ_self _) (List.cons.inj h).2 rfl
      | some found =>
        obtain ⟨first, rest⟩ := found
        obtain ⟨heq, -, hfirst⟩ := expression?_eq_some_iff.mp hread
        rw [expressionsFrom_of_expression? hread]
        obtain hwithin | ⟨between, hrest⟩ := infix_or_exists_of_append_eq hbody hfirst (h ▸ heq)
        · exact ⟨first, List.mem_cons_self, hwithin⟩
        · obtain ⟨found, hmem, hwithin⟩ := ih rest.length (by simp [heq, opening_eq]; omega) hrest rfl
          exact ⟨found, List.mem_cons_of_mem _ hmem, hwithin⟩

/-! ## What strangers have a part in -/

/-- An output of a step stands in an expression. -/
def ReadsOutput (expression : List Char) : Prop :=
  ∃ step name, step ≠ [] ∧ '.' ∉ step ∧ isBlank name = false ∧ name ≠ '\x7d' ∧
    "steps.".toList ++ step ++ ".outputs.".toList ++ [name] <:+: expression

/-- Strangers have a part in an expression: it reads a property that they can set, or an output of a
step. -/
def IsForeign (expression : List Char) : Prop :=
  (∃ property ∈ foreignProperties, property.toList <:+: expression) ∨ ReadsOutput expression

theorem IsForeign.mono {larger : List Char} (h : IsForeign body) (hwithin : body <:+: larger) :
    IsForeign larger := by
  obtain ⟨property, hproperty, hmem⟩ | ⟨step, name, hne, hdot, hblank, hbrace, hmem⟩ := h
  · exact .inl ⟨property, hproperty, hmem.trans hwithin⟩
  · exact .inr ⟨step, name, hne, hdot, hblank, hbrace, hmem.trans hwithin⟩

theorem foreignProperties_ends : ∀ property ∈ foreignProperties,
    (∃ c ∈ property.toList.head?, isBlank c = false) ∧
      ∃ c ∈ property.toList.getLast?, isBlank c = false := by
  have hends : (foreignProperties.all fun property =>
      property.toList.head?.any (! isBlank ·) && property.toList.getLast?.any (! isBlank ·)) =
        true := by
    decide +kernel
  intro property hproperty
  simpa [Option.any_eq_true] using List.all_eq_true.mp hends property hproperty

theorem IsForeign.ne_nil (h : IsForeign body) : body ≠ [] := by
  rintro rfl
  obtain ⟨property, hproperty, hmem⟩ | ⟨step, name, -, -, -, -, hmem⟩ := h
  · obtain ⟨⟨c, hc, -⟩, -⟩ := foreignProperties_ends property hproperty
    rw [List.infix_nil] at hmem
    simp [hmem] at hc
  · simp at hmem

theorem takeWhile_name_ne_nil_iff {named : List Char} :
    (named.takeWhile fun c => !isBlank c && c != '\x7d').isEmpty = false ↔
      ∃ name after, named = name :: after ∧ isBlank name = false ∧ name ≠ '\x7d' := by
  cases named with
  | nil => simp
  | cons c named =>
    rw [List.takeWhile_cons]
    split
    · next hc => simp_all
    · next hc =>
      refine iff_of_false (by simp) ?_
      rintro ⟨name, after, heq, hblank, hbrace⟩
      cases heq
      simp [hblank, hbrace] at hc

theorem isSome_outputAt?_iff : (outputAt? text).isSome = true ↔
    ∃ step name, step ≠ [] ∧ '.' ∉ step ∧ isBlank name = false ∧ name ≠ '\x7d' ∧
      "steps.".toList ++ step ++ ".outputs.".toList ++ [name] <+: text := by
  have houtputs : ".outputs.".toList = '.' :: "outputs.".toList := by decide
  rw [Option.isSome_iff_exists]
  simp only [outputAt?, Option.bind_eq_some_iff, dropPrefix?_eq_some_iff, houtputs]
  constructor
  · rintro ⟨output, inner, rfl, hstep⟩
    split at hstep
    · cases hstep
    next hne =>
    obtain ⟨named, hnamed, hread⟩ := Option.bind_eq_some_iff.mp hstep
    split at hread
    · cases hread
    next hname =>
    obtain ⟨heq, hdot⟩ := takeWhile_eq_and_drop_eq_iff.mp ⟨rfl, dropPrefix?_eq_some_iff.mp hnamed⟩
    obtain ⟨name, after, rfl, hblank, hbrace⟩ :=
      takeWhile_name_ne_nil_iff.mp (Bool.eq_false_iff.mpr hname)
    refine ⟨_, name, by simpa using hne, hdot, hblank, hbrace, after, ?_⟩
    rw [List.append_assoc, List.append_assoc, List.append_assoc]
    exact congrArg ("steps.".toList ++ ·) heq.symm
  · rintro ⟨step, name, hne, hdot, hblank, hbrace, after, rfl⟩
    obtain ⟨htake, hdrop⟩ := takeWhile_eq_and_drop_eq_iff.mpr
      ⟨(rfl : step ++ '.' :: ("outputs.".toList ++ name :: after) = _), hdot⟩
    have hname := takeWhile_name_ne_nil_iff.mpr ⟨name, after, rfl, hblank, hbrace⟩
    refine ⟨"steps.".toList ++ step ++ '.' :: "outputs.".toList ++
      (name :: after).takeWhile fun c => !isBlank c && c != '\x7d',
      step ++ '.' :: ("outputs.".toList ++ name :: after), by simp, ?_⟩
    rw [htake, hdrop, if_neg (by simpa using hne), Option.bind_eq_some_iff]
    refine ⟨name :: after, dropPrefix?_eq_some_iff.mpr rfl, ?_⟩
    rw [hname]
    rfl

theorem isSome_output?_iff : (output? text).isSome = true ↔ ReadsOutput text := by
  induction text with
  | nil => simp [output?, ReadsOutput]
  | cons c text ih =>
    have hor : (output? (c :: text)).isSome = true ↔
        (outputAt? (c :: text)).isSome = true ∨ (output? text).isSome = true := by
      rw [output?]
      cases outputAt? (c :: text) <;> simp
    rw [hor, ih, isSome_outputAt?_iff, ReadsOutput, ReadsOutput]
    simp only [List.infix_cons_iff, and_or_left, exists_or]

theorem isForeign_trim_iff : IsForeign (trim body) ↔ IsForeign body := by
  refine or_congr (exists_congr fun property => and_congr_right fun hproperty => ?_)
    (exists_congr fun step => exists_congr fun name => and_congr_right fun _ =>
      and_congr_right fun _ => and_congr_right fun hblank => and_congr_right fun _ => ?_)
  · obtain ⟨hhead, hlast⟩ := foreignProperties_ends property hproperty
    exact infix_trim_iff hhead hlast
  · exact infix_trim_iff ⟨'s', by simp, by decide⟩ ⟨name, List.getLast?_concat, hblank⟩

theorem isSome_foreignPart?_iff : (foreignPart? body).isSome = true ↔ IsForeign body := by
  rw [← isForeign_trim_iff, IsForeign, ← isSome_output?_iff]
  simp only [← occursIn_iff]
  unfold foreignPart?
  dsimp only
  split
  · next property hproperty =>
    have hoccurs := List.find?_some hproperty
    refine iff_of_true ?_ (.inl ⟨property, List.mem_of_find?_eq_some hproperty, hoccurs⟩)
    split <;> rfl
  · next hnone =>
    rw [Option.isSome_map, or_iff_right]
    rintro ⟨property, hproperty, hoccurs⟩
    exact List.find?_eq_none.mp hnone property hproperty hoccurs

/-! ## Texts and steps -/

/-- A text has an expression without braces that strangers have a part in. -/
def HoldsForeign (text : String) : Prop :=
  ∃ before body after, text.toList = before ++ opening ++ body ++ closing ++ after ∧
    '\x7d' ∉ body ∧ IsForeign body

theorem isSome_foreignInput?_iff {text : String} :
    (foreignInput? text).isSome = true ↔ HoldsForeign text := by
  rw [foreignInput?, List.isSome_findSome?, List.any_eq_true]
  constructor
  · rintro ⟨body, hmem, hpart⟩
    obtain ⟨before, after, heq, hbrace⟩ := exists_eq_of_mem_expressionsFrom hmem
    exact ⟨before, body, after, heq, hbrace, isSome_foreignPart?_iff.mp hpart⟩
  · rintro ⟨before, body, after, heq, hbrace, hforeign⟩
    obtain ⟨found, hmem, hwithin⟩ := exists_infix_mem_expressionsFrom hforeign.ne_nil hbrace heq
    exact ⟨found, hmem, isSome_foreignPart?_iff.mpr (hforeign.mono hwithin)⟩

/-- The script among the inputs of a step. -/
def script? (step : Entries) : Option String :=
  ((step.get? "with").bind fun inputs => inputs.get? "script").bind Value.text?

theorem exists_mem_map_iff {text? : Option String} {location : Location} {say : String → Finding}
    (hsay : ∀ input, (say input).location = location) :
    (∃ found ∈ (text?.bind foreignInput?).toList.map say, found.location = location) ↔
      ∃ text, text? = some text ∧ HoldsForeign text := by
  simp only [← isSome_foreignInput?_iff]
  cases text? with
  | none => simp
  | some text => cases h : foreignInput? text <;> simp [h, hsay]

theorem not_mem_map_of_ne {text? : Option String} {here location : Location}
    {say : String → Finding} (hsay : ∀ input, (say input).location = here) (hne : here ≠ location) :
    ¬ ∃ found ∈ (text?.bind foreignInput?).toList.map say, found.location = location := by
  rintro ⟨found, hmem, rfl⟩
  obtain ⟨input, -, rfl⟩ := List.mem_map.mp hmem
  exact hne (hsay input).symm

theorem not_mem_when_of_ne {condition : Bool} {here location : Location} {message : String}
    (hne : here ≠ location) :
    ¬ ∃ found ∈ Finding.when condition here message, found.location = location := by
  rintro ⟨found, hmem, rfl⟩
  cases condition with
  | false => cases hmem
  | true =>
    obtain rfl := List.mem_singleton.mp hmem
    exact hne rfl

variable {location : Location} {step : Entries}

theorem found_at_run_iff :
    (∃ found ∈ inStep location step, found.location = location.key "run") ↔
      ∃ text, step.text? "run" = some text ∧ HoldsForeign text := by
  simp only [inStep, List.mem_append, or_and_right, exists_or]
  refine ((or_iff_left ?_).trans (or_iff_left ?_)).trans (exists_mem_map_iff fun _ => rfl)
  · exact not_mem_map_of_ne (fun _ => rfl) (by simp [Location.key])
  · exact not_mem_when_of_ne (by simp [Location.key])

theorem found_at_script_iff :
    (∃ found ∈ inStep location step, found.location = location.keys ["with", "script"]) ↔
      ∃ text, script? step = some text ∧ HoldsForeign text := by
  simp only [inStep, List.mem_append, or_and_right, exists_or]
  refine (or_iff_right (not_or.mpr ⟨?_, ?_⟩)).trans (exists_mem_map_iff fun _ => rfl)
  · exact not_mem_map_of_ne (fun _ => rfl) (by simp [Location.key, Location.keys])
  · exact not_mem_when_of_ne (by simp [Location.key, Location.keys])

/-- Something is found in a text if and only if the text has an expression without braces that
strangers have a part in, whatever stands around it; and then each step that runs such a text gets a
finding. -/
theorem foreign_found_iff (doc : Value) :
    (∀ text : String, (foreignInput? text).isSome = true ↔ HoldsForeign text) ∧
      (∀ before expression after : String,
        (∃ property ∈ foreignProperties, holds expression property = true) →
        '\x7d' ∉ expression.toList →
        (foreignInput? (before ++ "$\x7b\x7b" ++ expression ++ "\x7d\x7d" ++ after)).isSome = true) ∧
      ∀ step ∈ doc.steps, inStep step.1 step.2 ⊆ findings doc ∧
        ((∃ found ∈ inStep step.1 step.2, found.location = step.1.key "run") ↔
          ∃ text, step.2.text? "run" = some text ∧ HoldsForeign text) ∧
        ((∃ found ∈ inStep step.1 step.2, found.location = step.1.keys ["with", "script"]) ↔
          ∃ text, script? step.2 = some text ∧ HoldsForeign text) := by
  refine ⟨fun _ => isSome_foreignInput?_iff, ?_, ?_⟩
  · rintro before expression after ⟨property, hproperty, hholds⟩ hbrace
    refine isSome_foreignInput?_iff.mpr ⟨before.toList, expression.toList, after.toList, ?_, hbrace,
      .inl ⟨property, hproperty, holds_iff.mp hholds⟩⟩
    simp only [String.toList_append, opening, closing]
  · intro step hstep
    refine ⟨fun found hfound => ?_, found_at_run_iff, found_at_script_iff⟩
    exact List.mem_flatMap.mpr ⟨step, hstep, hfound⟩

/-- A workflow that prints the name of a stranger's branch. -/
def sampleWorkflow : Value :=
  .mapping [(.string "jobs", .mapping [(.string "build", .mapping [(.string "steps", .sequence
    [.mapping [(.string "run", .string "echo $\x7b\x7b github.head_ref \x7d\x7d")]])])])]

theorem foreign_found_sample :
    let expression := " github.head_ref "
    (∃ property ∈ foreignProperties, holds expression property = true) ∧
      '\x7d' ∉ expression.toList ∧
      (foreignInput? ("echo " ++ "$\x7b\x7b" ++ expression ++ "\x7d\x7d" ++ " >> log")).isSome =
        true ∧
      ∃ found ∈ findings sampleWorkflow, found.location.text = "$.jobs.build.steps[0].run" := by
  intro expression
  have hiff := foreign_found_iff sampleWorkflow
  have hproperty : ∃ property ∈ foreignProperties, holds expression property = true :=
    ⟨"github.head_ref", by simp [foreignProperties], by decide⟩
  have hbrace : '\x7d' ∉ expression.toList := by decide
  refine ⟨hproperty, hbrace, hiff.2.1 "echo " expression " >> log" hproperty hbrace, ?_⟩
  have hstep : sampleWorkflow.steps = [(((Location.root.keys ["jobs", "build", "steps"]).index 0),
      [(.string "run", .string "echo $\x7b\x7b github.head_ref \x7d\x7d")])] := by decide
  obtain ⟨hsubset, hrun, -⟩ := hiff.2.2 _ (hstep ▸ List.mem_singleton_self _)
  have hscript : "echo $\x7b\x7b github.head_ref \x7d\x7d" =
      "echo " ++ "$\x7b\x7b" ++ expression ++ "\x7d\x7d" ++ "" := by decide
  obtain ⟨found, hfound, hlocation⟩ := hrun.mpr ⟨_, rfl, (hiff.1 _).mp
    (hscript ▸ hiff.2.1 "echo " expression "" hproperty hbrace)⟩
  exact ⟨found, hsubset hfound, by rw [hlocation]; decide⟩

/-- The braces of a format hide what strangers bring. -/
theorem foreignInput?_format :
    let expression := " format('\x7b0\x7d', github.head_ref) "
    (∃ property ∈ foreignProperties, holds expression property = true) ∧
      holds expression "\x7d\x7d" = false ∧
      foreignInput? ("$\x7b\x7b" ++ expression ++ "\x7d\x7d") = none := by
  exact ⟨⟨"github.head_ref", by simp [foreignProperties], by decide⟩, by decide, by decide⟩

end WorkflowRecipes.Taint
