import WorkflowRecipes.Yaml.Render
import WorkflowRecipes.Proofs.Yaml.Segments

/-!
# Pages that are written on

What stands on a page stays, and a line that is left is left by a break.

Results:
1. `Page.extends_value`: writing a value leaves what is written before it.
2. `Page.spaceFollows_value`: behind a mark a value is set off by a blank or a break.
3. `isClosed_renderDocument`: a rendering ends with a break.
-/

namespace WorkflowRecipes

namespace Yaml

/-- What a string in a form starts with. -/
def Form.opening (form : Form) (text : List Char) : List Char :=
  match form with
  | .plain => text
  | .singleQuoted => ['\'']
  | .doubleQuoted => '"' :: text.flatMap doubleQuotedChar ++ ['"']
  | .literal => '|' :: blockHints text

/-! ## Pages that are written on -/

/-- Whether a text in reverse is empty or ends with a break. -/
def IsAtBreak (written : List Char) : Prop := ∀ c, written.head? = some c → isBreak c = true

/-- The second page is the first one written on, and it is at the start of a line only behind a
break if the first one is. -/
structure Page.Extends (p q : Page) : Prop where
  suffix : p.written <:+ q.written
  atBreak : (p.column = 0 → IsAtBreak p.written) → q.column = 0 → IsAtBreak q.written

namespace Page

variable {p q r : Page}

theorem Extends.rfl : Extends p p := ⟨List.suffix_rfl, id⟩

theorem Extends.trans (hpq : Extends p q) (hqr : Extends q r) : Extends p r :=
  ⟨hpq.suffix.trans hqr.suffix, fun h => hqr.atBreak (hpq.atBreak h)⟩

/-- The marks of a page that tell of its last line do not matter. -/
theorem Extends.withMarks (h : Extends p q) (afterBlank opening : Bool) :
    Extends p { q with afterBlank := afterBlank, opening := opening } :=
  ⟨h.suffix, h.atBreak⟩

theorem extends_put (p : Page) (c : Char) : Extends p (p.put c) :=
  ⟨List.suffix_cons c p.written, fun _ hzero => absurd hzero (Nat.succ_ne_zero _)⟩

theorem extends_putAll (p : Page) (text : List Char) : Extends p (p.putAll text) := by
  induction text generalizing p with
  | nil => exact .rfl
  | cons c text ih => exact (extends_put p c).trans (ih _)

theorem extends_lineBreak (p : Page) {c : Char} (hc : isBreak c = true) :
    Extends p (p.lineBreak c) :=
  ⟨List.suffix_cons c p.written, fun _ _ _ hd => Option.some.inj hd ▸ hc⟩

theorem extends_space (p : Page) : Extends p p.space := by
  unfold space
  split
  · exact .rfl
  · exact extends_put p ' '

theorem extends_indentTo (p : Page) (indent : Nat) : Extends p (p.indentTo indent) := by
  refine Extends.withMarks (.trans ?_ (extends_putAll _ _)) true true
  split
  · exact .rfl
  · exact extends_lineBreak p (by decide)

theorem extends_mark (p : Page) (text : List Char) : Extends p (p.mark text) :=
  (extends_putAll p text).withMarks false false

theorem extends_openingMark (p : Page) (c : Char) : Extends p (p.openingMark c) := by
  exact ((extends_space p).trans (extends_put p.space c)).withMarks false _

theorem extends_lines (p : Page) (indent : Nat) (quote : Option Char) (fresh : Bool)
    (text : List Char) : Extends p (p.lines indent quote fresh text) := by
  induction text generalizing p fresh with
  | nil => exact .rfl
  | cons c rest ih =>
    rw [lines]
    split
    · next hc =>
      exact ((extends_lineBreak p hc).withMarks _ true).trans (ih _ true)
    · split
      · exact (extends_put p c).trans (ih _ _)
      · refine Extends.trans ?_ (ih _ _)
        have hfresh : Extends p (if fresh then p.indentTo indent else p) := by
          split
          · exact extends_indentTo p indent
          · exact .rfl
        have hquote : ∀ q : Page, Extends q (if quote == some c then q.put c else q) := by
          intro q
          split
          · exact extends_put q c
          · exact .rfl
        exact ((hfresh.trans (hquote _)).trans (extends_put _ c)).withMarks _ false

/-- A string starts on the line it stands on, behind a blank. -/
theorem extends_string (p : Page) (indent : Nat) (form : Form) (text : List Char) :
    Extends (p.space.mark (form.opening text)) (p.string indent form text) := by
  cases form with
  | plain | doubleQuoted => exact .rfl
  | singleQuoted =>
    have hlines := extends_lines (p.space.mark ['\'']) indent (some '\'') false text
    refine Extends.trans ?_ (extends_mark _ _)
    split
    · exact hlines.trans (extends_indentTo _ _)
    · exact hlines
  | literal =>
    have hbreak := extends_lineBreak (p.space.mark ('|' :: blockHints text)) (c := '\n') (by decide)
    exact (hbreak.withMarks true true).trans (extends_lines _ _ _ _ _)

theorem extends_start {column : Nat} {empty : Bool}
    (h : Extends (if empty then p else p.indentTo column) q) : Extends p q := by
  cases empty with
  | false => exact (extends_indentTo p column).trans h
  | true => exact h

/-- What is written on a page starts behind a blank, or at a column. -/
inductive StartsApart (p q : Page) : Prop
  | blank : Extends p.space q → StartsApart p q
  | column (indent : Nat) : Extends (p.indentTo indent) q → StartsApart p q

theorem StartsApart.extends (h : StartsApart p q) : Extends p q := by
  cases h with
  | blank h => exact (extends_space p).trans h
  | column indent h => exact (extends_indentTo p indent).trans h

mutual

theorem startsApart_value (p : Page) (place : Place) (v : Value) :
    StartsApart p (p.value place v) := by
  match v with
  | .tagged tag v =>
    rw [value]
    exact .blank ((extends_mark _ _).trans (startsApart_value _ place v).extends)
  | .null | .bool _ | .number _ | .sequence [] | .mapping [] =>
    rw [value]
    exact .blank (extends_mark _ _)
  | .string s =>
    rw [value]
    exact .blank ((extends_mark _ _).trans (extends_string p _ _ _))
  | .sequence (item :: rest) =>
    rw [value]
    · exact .column _ (extends_items p _ (item :: rest))
    · exact nofun
  | .mapping (entry :: rest) =>
    rw [value]
    · exact .column _ (extends_entries p _ (entry :: rest))
    · exact nofun

/-- Items start at their column. -/
theorem extends_items (p : Page) (column : Nat) (items : List Value) :
    Extends (if items.isEmpty then p else p.indentTo column) (p.items column items) := by
  match items with
  | [] => exact .rfl
  | item :: rest =>
    rw [Page.items]
    refine .trans ?_ (extends_start (extends_items _ column rest))
    exact (extends_openingMark _ '-').trans (startsApart_value _ _ item).extends

/-- Entries start at their column. -/
theorem extends_entries (p : Page) (column : Nat) (entries : List (Value × Value)) :
    Extends (if entries.isEmpty then p else p.indentTo column) (p.entries column entries) := by
  match entries with
  | [] => exact .rfl
  | (key, v) :: rest =>
    rw [Page.entries]
    refine .trans ?_ (extends_start (extends_entries _ column rest))
    refine .trans ?_ (startsApart_value _ _ v).extends
    show Extends (p.indentTo column) _
    split
    · exact (startsApart_value _ _ key).extends.trans (extends_mark _ _)
    · refine .trans ?_ (extends_openingMark _ ':')
      refine .trans ?_ (extends_indentTo _ column)
      exact (extends_openingMark _ '?').trans (startsApart_value _ _ key).extends

end

/-- Writing a value leaves what is written before it. -/
theorem extends_value (p : Page) (place : Place) (v : Value) : Extends p (p.value place v) :=
  (startsApart_value p place v).extends

@[simp] theorem text_putAll (p : Page) (text : List Char) :
    (p.putAll text).text = p.text ++ text := by
  induction text generalizing p with
  | nil => exact (List.append_nil _).symm
  | cons c text ih =>
    refine (ih (p.put c)).trans ?_
    simp [Page.text, put]

@[simp] theorem text_mark (p : Page) (text : List Char) : (p.mark text).text = p.text ++ text :=
  text_putAll p text

theorem Extends.grows (h : Extends p q) : p.text <+: q.text :=
  List.reverse_prefix.mpr h.suffix

/-- The second page has a blank or a break next to the first. -/
def SpaceFollows (p q : Page) : Prop :=
  ∃ c, isSpaceOrBreak c = true ∧ (c :: p.written) <:+ q.written

theorem SpaceFollows.trans (hpq : SpaceFollows p q) (hqr : Extends q r) : SpaceFollows p r := by
  obtain ⟨c, hc, hsuffix⟩ := hpq
  exact ⟨c, hc, hsuffix.trans hqr.suffix⟩

theorem spaceFollows_space (h : p.afterBlank = false) : SpaceFollows p p.space := by
  refine ⟨' ', by decide, ?_⟩
  rw [space, if_neg (by simp [h])]
  exact List.suffix_rfl

theorem spaceFollows_indentTo (h : p.afterBlank = false) (indent : Nat) :
    SpaceFollows p (p.indentTo indent) := by
  unfold indentTo
  rw [h, Bool.and_false, Bool.or_false]
  dsimp only
  split
  · next hstays =>
    obtain ⟨n, hn⟩ : ∃ n, indent - p.column = n + 1 :=
      ⟨indent - p.column - 1, by simp at hstays; omega⟩
    rw [hn]
    exact ⟨' ', by decide, (extends_putAll (p.put ' ') (List.replicate n ' ')).suffix⟩
  · exact ⟨'\n', by decide, (extends_putAll (p.lineBreak '\n') _).suffix⟩

/-- A value behind a mark is set off from it. -/
theorem spaceFollows_value (h : p.afterBlank = false) (place : Place) (v : Value) :
    SpaceFollows p (p.value place v) := by
  cases startsApart_value p place v with
  | blank hvalue => exact (spaceFollows_space h).trans hvalue
  | column indent hvalue => exact (spaceFollows_indentTo h indent).trans hvalue

end Page

/-! ## The end -/

theorem Page.column_indentTo_zero (p : Page) : (p.indentTo 0).column = 0 := by
  unfold indentTo
  simp only [Nat.not_lt_zero, decide_false, Bool.false_or, Nat.zero_sub, List.replicate_zero]
  split
  · next hstays =>
    simp only [Bool.and_eq_true, beq_iff_eq] at hstays
    exact hstays.2.1
  · rfl

theorem isClosed_renderDocument (doc : Value) : IsClosed (renderDocument doc) := by
  intro c hc
  have hextends := (Page.extends_value {} {} doc).trans (Page.extends_indentTo _ 0)
  rw [renderDocument, Page.text, List.getLast?_reverse] at hc
  exact hextends.atBreak (fun _ _ h => nomatch h) (Page.column_indentTo_zero _) c hc

end Yaml

end WorkflowRecipes
