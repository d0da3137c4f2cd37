import Mathlib.Data.List.Forall2
import WorkflowRecipes.Pattern.Basic

/-!
# What patterns describe

A pattern describes stretches of a text, each between what stands before it and what stands after
it. The search for places where a stretch can end finds exactly the stretches that are described:
no place is lost when places are united, and rounds that do not move on add nothing.

Results:
1. `marks_ends`: the places found are the ends of the stretches that the pattern describes.
2. `occursIn_iff_covers`: a pattern is in a text if and only if it describes a stretch of it.
3. `occursIn_append`, `isIn_append`: a pattern that does not look around is also in every text around
   the text.
-/

namespace WorkflowRecipes

/-- A condition on a stretch of a text, given what stands before it and what stands after it. -/
abbrev Condition := List Char → List Char → List Char → Prop

namespace Condition

/-- The stretch has no characters. -/
def nothing : Condition := fun _ stretch _ => stretch = []

/-- The stretch has two parts, one for each condition. -/
def andThen (first second : Condition) : Condition := fun before stretch after =>
  ∃ s t, stretch = s ++ t ∧ first before s (t ++ after) ∧ second (before ++ s) t after

/-- The stretch has as many parts, each for the condition. -/
def rounds (round : Condition) : Nat → Condition
  | 0 => nothing
  | n + 1 => round.andThen (rounds round n)

/-- The stretch has characters, and the condition holds. -/
def moving (round : Condition) : Condition := fun before stretch after =>
  stretch ≠ [] ∧ round before stretch after

variable {round first second third : Condition} {before stretch after : List Char}

theorem nothing_andThen (second : Condition) : nothing.andThen second = second := by
  funext before stretch after
  refine propext ⟨?_, fun h => ⟨[], stretch, rfl, rfl, by rwa [List.append_nil]⟩⟩
  rintro ⟨s, t, rfl, rfl, h⟩
  rwa [List.append_nil] at h

theorem andThen_nothing (first : Condition) : first.andThen nothing = first := by
  funext before stretch after
  refine propext ⟨?_, fun h => ⟨stretch, [], (List.append_nil stretch).symm, h, rfl⟩⟩
  rintro ⟨s, t, rfl, h, rfl⟩
  rwa [List.append_nil]

theorem andThen_assoc (first second third : Condition) :
    (first.andThen second).andThen third = first.andThen (second.andThen third) := by
  funext before stretch after
  refine propext ⟨?_, ?_⟩
  · rintro ⟨_, u, rfl, ⟨s, t, rfl, hs, ht⟩, hu⟩
    refine ⟨s, t ++ u, List.append_assoc s t u, ?_, t, u, rfl, ht, ?_⟩
    · rwa [List.append_assoc]
    · rwa [List.append_assoc]
  · rintro ⟨s, _, rfl, hs, t, u, rfl, ht, hu⟩
    refine ⟨s ++ t, u, (List.append_assoc s t u).symm, ⟨s, t, rfl, ?_, ht⟩, ?_⟩
    · rwa [← List.append_assoc]
    · rwa [← List.append_assoc]

theorem rounds_add (round : Condition) (m n : Nat) :
    round.rounds (m + n) = (round.rounds m).andThen (round.rounds n) := by
  induction m with
  | zero => rw [Nat.zero_add, rounds, nothing_andThen]
  | succ m ih => rw [Nat.succ_add, rounds, rounds, ih, andThen_assoc]

theorem rounds_of_moving {n : Nat} (h : round.moving.rounds n before stretch after) :
    round.rounds n before stretch after := by
  induction n generalizing before stretch with
  | zero => exact h
  | succ n ih =>
    obtain ⟨s, t, rfl, ⟨-, hs⟩, ht⟩ := h
    exact ⟨s, t, rfl, hs, ih ht⟩

/-- Rounds that do not move on can be left out, so no more are needed than there are characters. -/
theorem exists_moving_rounds {n : Nat} (h : round.rounds n before stretch after) :
    ∃ k ≤ n, k ≤ stretch.length ∧ round.moving.rounds k before stretch after := by
  induction n generalizing before stretch with
  | zero => exact ⟨0, Nat.le_refl 0, Nat.zero_le _, h⟩
  | succ n ih =>
    obtain ⟨s, t, rfl, hs, ht⟩ := h
    obtain ⟨k, hk, hlength, hrounds⟩ := ih ht
    cases s with
    | nil =>
      rw [List.append_nil] at hrounds
      exact ⟨k, by omega, hlength, hrounds⟩
    | cons c s =>
      refine ⟨k + 1, by omega, ?_, c :: s, t, rfl, ⟨List.cons_ne_nil c s, hs⟩, hrounds⟩
      simp only [List.length_append, List.length_cons]
      omega

end Condition

/-- The stretches that a pattern describes. -/
def Pattern.Covers : Pattern → Condition
  | .empty => .nothing
  | .one admits => fun _ stretch _ => ∃ c, stretch = [c] ∧ admits c = true
  | .between holds => fun before stretch after =>
    stretch = [] ∧ holds before.getLast? after.head? = true
  | .seq first second => first.Covers.andThen second.Covers
  | .alt first second => fun before stretch after =>
    first.Covers before stretch after ∨ second.Covers before stretch after
  | .times body least most => fun before stretch after =>
    ∃ n, least ≤ n ∧ (∀ bound ∈ most, n ≤ max least bound) ∧
      body.Covers.rounds n before stretch after

namespace Place

/-- The place between two texts. -/
def ofTexts (before rest : List Char) : Place := ⟨before.length, before.getLast?, rest⟩

/-- The places are the ends of the stretches for a condition, of those that start between two
texts. -/
def Marks (places : List Place) (before rest : List Char) (condition : Condition) : Prop :=
  ∀ q, q ∈ places ↔ ∃ stretch after, rest = stretch ++ after ∧ condition before stretch after ∧
    q = ofTexts (before ++ stretch) after

variable {places : List Place} {before rest : List Char} {condition next : Condition}

theorem marks_congr {other : Condition}
    (h : ∀ stretch after, rest = stretch ++ after →
      (condition before stretch after ↔ other before stretch after)) :
    Marks places before rest condition ↔ Marks places before rest other := by
  refine forall_congr' fun q => iff_congr Iff.rfl ?_
  refine exists_congr fun stretch => exists_congr fun after => and_congr_right fun heq => ?_
  rw [h stretch after heq]

theorem marks_nothing (before rest : List Char) :
    Marks [ofTexts before rest] before rest .nothing := by
  intro q
  rw [List.mem_singleton]
  constructor
  · rintro rfl
    exact ⟨[], rest, rfl, rfl, by rw [List.append_nil]⟩
  · rintro ⟨_, after, rfl, rfl, rfl⟩
    rw [List.append_nil, List.nil_append]

/-- Places that are reached from one place differ in position. -/
theorem Marks.eq_of_position (h : Marks places before rest condition) {p q : Place}
    (hp : p ∈ places) (hq : q ∈ places) (heq : p.position = q.position) : p = q := by
  obtain ⟨s, after, rfl, -, rfl⟩ := (h p).mp hp
  obtain ⟨t, after', heq', -, rfl⟩ := (h q).mp hq
  simp only [ofTexts, List.length_append] at heq
  obtain ⟨rfl, rfl⟩ := List.append_inj heq' (by omega)
  rfl

theorem mem_dropRepeated {places : List Place}
    (h : ∀ p ∈ places, ∀ q ∈ places, p.position = q.position → p = q) (q : Place) :
    q ∈ dropRepeated places ↔ q ∈ places := by
  fun_induction dropRepeated places with
  | case1 p p' rest heq ih =>
    rw [ih fun p hp q hq => h p (List.mem_cons_of_mem _ hp) q (List.mem_cons_of_mem _ hq)]
    have hsame : p = p' := h p List.mem_cons_self p' (List.mem_cons_of_mem _ List.mem_cons_self) heq
    simp [hsame]
  | case2 p p' rest _ ih =>
    rw [List.mem_cons, List.mem_cons (l := p' :: rest),
      ih fun p hp q hq => h p (List.mem_cons_of_mem _ hp) q (List.mem_cons_of_mem _ hq)]
  | case3 short _ => rfl

theorem Marks.unite (h : Marks places before rest condition) :
    Marks (unite places) before rest condition := by
  intro q
  rw [← h q]
  unfold Place.unite
  split
  · rfl
  · rfl
  · rw [mem_dropRepeated, List.mem_mergeSort]
    intro p hp q hq
    rw [List.mem_mergeSort] at hp hq
    exact h.eq_of_position hp hq

/-- Where a stretch for one condition ends, one for another goes on. -/
theorem Marks.flatMap {step : Place → List Place} (h : Marks places before rest condition)
    (hstep : ∀ before rest, Marks (step (ofTexts before rest)) before rest next) :
    Marks (places.flatMap step) before rest (condition.andThen next) := by
  intro q
  rw [List.mem_flatMap]
  constructor
  · rintro ⟨p, hp, hq⟩
    obtain ⟨s, middle, rfl, hs, rfl⟩ := (h p).mp hp
    obtain ⟨t, after, rfl, ht, rfl⟩ := (hstep _ _ q).mp hq
    exact ⟨s ++ t, after, (List.append_assoc s t after).symm, ⟨s, t, rfl, hs, ht⟩, by
      rw [List.append_assoc]⟩
  · rintro ⟨_, after, rfl, ⟨s, t, rfl, hs, ht⟩, rfl⟩
    refine ⟨ofTexts (before ++ s) (t ++ after), (h _).mpr ⟨s, t ++ after, ?_, hs, rfl⟩, ?_⟩
    · rw [List.append_assoc]
    · exact (hstep _ _ _).mpr ⟨t, after, rfl, ht, by rw [List.append_assoc]⟩

theorem Marks.append (h : Marks places before rest condition) {more : List Place}
    (hmore : Marks more before rest next) :
    Marks (places ++ more) before rest fun before stretch after =>
      condition before stretch after ∨ next before stretch after := by
  intro q
  rw [List.mem_append, h q, hmore q, ← exists_or]
  refine exists_congr fun stretch => ?_
  rw [← exists_or]
  exact exists_congr fun after => by tauto

/-- The places farther on are the ends of the stretches with characters. -/
theorem marks_filter_moving (h : Marks places before rest condition) :
    Marks (places.filter fun q => before.length < q.position) before rest condition.moving := by
  intro q
  rw [List.mem_filter, h q]
  constructor
  · rintro ⟨⟨stretch, after, rfl, hstretch, rfl⟩, hmoves⟩
    refine ⟨stretch, after, rfl, ⟨?_, hstretch⟩, rfl⟩
    rintro rfl
    simp [ofTexts] at hmoves
  · rintro ⟨stretch, after, rfl, ⟨hne, hstretch⟩, rfl⟩
    refine ⟨⟨stretch, after, rfl, hstretch, rfl⟩, ?_⟩
    simpa [ofTexts] using List.length_pos_iff.mpr hne

end Place

namespace Pattern

open Place

variable {step : Place → List Place} {round condition : Condition} {places : List Place}
  {before rest : List Char}

/-! ## The search -/

theorem after_nil (step : Place → List Place) (n : Nat) : after step n [] = [] := by
  cases n <;> rfl

theorem within_nil (step : Place → List Place) (n : Nat) : within step n [] = [] := by
  cases n <;> rfl

theorem after_succ (step : Place → List Place) (n : Nat) (places : List Place) :
    after step (n + 1) places = after step n (unite (places.flatMap step)) := by
  cases places with
  | nil => exact (after_nil step n).symm
  | cons p rest => rfl

theorem within_succ (step : Place → List Place) (n : Nat) (places : List Place) :
    within step (n + 1) places = places ++ within step n (unite (places.flatMap fun p =>
      (step p).filter fun q => p.position < q.position)) := by
  cases places with
  | nil => exact (within_nil step n).symm
  | cons p rest => rfl

theorem marks_after (hstep : ∀ before rest, Marks (step (ofTexts before rest)) before rest round)
    (n : Nat) (h : Marks places before rest condition) :
    Marks (after step n places) before rest (condition.andThen (round.rounds n)) := by
  induction n generalizing places condition with
  | zero => rwa [Condition.rounds, Condition.andThen_nothing]
  | succ n ih =>
    rw [after_succ, Condition.rounds, ← Condition.andThen_assoc]
    exact ih (h.flatMap hstep).unite

theorem marks_within (hstep : ∀ before rest, Marks (step (ofTexts before rest)) before rest round)
    (n : Nat) (h : Marks places before rest condition) :
    Marks (within step n places) before rest fun before stretch after =>
      ∃ k ≤ n, (condition.andThen (round.moving.rounds k)) before stretch after := by
  induction n generalizing places condition with
  | zero =>
    refine (marks_congr fun stretch after _ => ?_).mp h
    simp only [Nat.le_zero, exists_eq_left, Condition.rounds, Condition.andThen_nothing]
  | succ n ih =>
    have hfarther : ∀ before rest, Marks
        ((fun p => (step p).filter fun q => p.position < q.position) (ofTexts before rest))
        before rest round.moving :=
      fun before rest => marks_filter_moving (hstep before rest)
    rw [within_succ]
    refine (marks_congr fun stretch after _ => ?_).mp (h.append (ih (h.flatMap hfarther).unite))
    simp only [Condition.andThen_assoc]
    constructor
    · rintro (hhere | ⟨k, hk, hlater⟩)
      · refine ⟨0, Nat.zero_le _, ?_⟩
        rwa [Condition.rounds, Condition.andThen_nothing]
      · exact ⟨k + 1, Nat.succ_le_succ hk, hlater⟩
    · rintro ⟨k, hk, hrounds⟩
      cases k with
      | zero =>
        rw [Condition.rounds, Condition.andThen_nothing] at hrounds
        exact .inl hrounds
      | succ k => exact .inr ⟨k, Nat.le_of_succ_le_succ hk, hrounds⟩

/-- As many further rounds as there are characters are enough, of those that move on. -/
theorem exists_further_rounds_iff {least : Nat} {most : Option Nat} {stretch after : List Char}
    (hrest : rest = stretch ++ after) :
    (∃ k ≤ (match most with
        | some most => min (most - least) rest.length
        | none => rest.length),
      ((round.rounds least).andThen (round.moving.rounds k)) before stretch after) ↔
    ∃ n, least ≤ n ∧ (∀ bound ∈ most, n ≤ max least bound) ∧
      round.rounds n before stretch after := by
  constructor
  · rintro ⟨k, hk, s, t, rfl, hs, ht⟩
    refine ⟨least + k, Nat.le_add_right _ _, ?_, ?_⟩
    · rintro bound rfl
      dsimp only at hk
      omega
    · rw [Condition.rounds_add]
      exact ⟨s, t, rfl, hs, Condition.rounds_of_moving ht⟩
  · rintro ⟨n, hleast, hmost, hrounds⟩
    obtain ⟨m, rfl⟩ := Nat.exists_eq_add_of_le hleast
    rw [Condition.rounds_add] at hrounds
    obtain ⟨s, t, rfl, hs, ht⟩ := hrounds
    obtain ⟨k, hk, hlength, hmoving⟩ := Condition.exists_moving_rounds ht
    refine ⟨k, ?_, s, t, rfl, hs, hmoving⟩
    have hfits : k ≤ rest.length := by
      rw [hrest, List.length_append, List.length_append]
      omega
    cases most with
    | none => exact hfits
    | some bound =>
      have hbound := hmost bound rfl
      dsimp only
      omega

/-- The places that are found are the ends of the stretches that the pattern describes. -/
theorem marks_ends (pattern : Pattern) (before rest : List Char) :
    Marks (pattern.ends (ofTexts before rest)) before rest pattern.Covers := by
  induction pattern generalizing before rest with
  | empty => exact marks_nothing before rest
  | one admits =>
    intro q
    cases rest with
    | nil => simp [ends, ofTexts, Covers]
    | cons c rest =>
      constructor
      · intro hq
        rw [ends] at hq
        dsimp only [ofTexts] at hq
        split at hq
        · next hc =>
          obtain rfl := List.mem_singleton.mp hq
          exact ⟨[c], rest, rfl, ⟨c, rfl, hc⟩, by simp [ofTexts]⟩
        · cases hq
      · rintro ⟨_, after, heq, ⟨d, rfl, hd⟩, rfl⟩
        obtain ⟨rfl, rfl⟩ := List.cons.inj heq
        simp [ends, ofTexts, hd]
  | between holds =>
    intro q
    rw [ends]
    constructor
    · intro hq
      split at hq
      · next hholds =>
        obtain rfl := List.mem_singleton.mp hq
        exact ⟨[], rest, rfl, ⟨rfl, hholds⟩, by rw [List.append_nil]⟩
      · cases hq
    · rintro ⟨_, after, rfl, ⟨rfl, hholds⟩, rfl⟩
      rw [List.append_nil, List.nil_append]
      exact (if_pos hholds).symm ▸ List.mem_singleton_self _
  | seq first second ihFirst ihSecond =>
    exact ((ihFirst before rest).flatMap ihSecond).unite
  | alt first second ihFirst ihSecond =>
    exact ((ihFirst before rest).append (ihSecond before rest)).unite
  | times body least most ih =>
    have hstart := marks_after ih least (marks_nothing before rest)
    rw [Condition.nothing_andThen] at hstart
    exact (marks_congr fun stretch after hrest => exists_further_rounds_iff hrest).mp
      (marks_within ih _ hstart).unite

/-! ## Patterns in a text -/

theorem marks_onward (before rest : List Char) :
    Marks (onward before.length before.getLast? rest) before rest fun _ _ _ => True := by
  intro q
  simp only [true_and]
  induction rest generalizing before with
  | nil =>
    rw [onward, List.mem_singleton]
    constructor
    · rintro rfl
      exact ⟨[], [], rfl, by rw [List.append_nil]; rfl⟩
    · rintro ⟨stretch, after, heq, rfl⟩
      obtain ⟨rfl, rfl⟩ := List.append_eq_nil_iff.mp heq.symm
      rw [List.append_nil]
      rfl
  | cons c rest ih =>
    have hnext := ih (before ++ [c])
    rw [List.length_append, List.length_singleton, List.getLast?_concat] at hnext
    rw [onward, List.mem_cons, hnext]
    constructor
    · rintro (rfl | ⟨stretch, after, rfl, rfl⟩)
      · exact ⟨[], c :: rest, rfl, by rw [List.append_nil]; rfl⟩
      · exact ⟨c :: stretch, after, rfl, by rw [List.append_assoc, List.singleton_append]⟩
    · rintro ⟨stretch, after, heq, rfl⟩
      cases stretch with
      | nil =>
        rw [List.append_nil]
        exact .inl (congrArg (ofTexts before) heq.symm)
      | cons d stretch =>
        obtain ⟨rfl, rfl⟩ := List.cons.inj heq
        exact .inr ⟨stretch, after, rfl, by rw [List.append_assoc, List.singleton_append]⟩

/-- A pattern is in a text if and only if it describes a stretch of it. -/
theorem occursIn_iff_covers {pattern : Pattern} {text : List Char} :
    pattern.occursIn text = true ↔ ∃ before stretch after, text = before ++ stretch ++ after ∧
      pattern.Covers before stretch after := by
  have honward := marks_onward [] text
  rw [occursIn, List.any_eq_true]
  constructor
  · rintro ⟨p, hp, hends⟩
    obtain ⟨before, rest, rfl, -, rfl⟩ := (honward p).mp hp
    rw [Bool.not_eq_true', List.isEmpty_eq_false_iff_exists_mem] at hends
    obtain ⟨q, hq⟩ := hends
    obtain ⟨stretch, after, rfl, hcovers, -⟩ := (marks_ends pattern before rest q).mp hq
    exact ⟨before, stretch, after, (List.append_assoc _ _ _).symm, hcovers⟩
  · rintro ⟨before, stretch, after, rfl, hcovers⟩
    refine ⟨ofTexts before (stretch ++ after), (honward _).mpr ⟨before, stretch ++ after,
      List.append_assoc _ _ _, trivial, rfl⟩, ?_⟩
    rw [Bool.not_eq_true', List.isEmpty_eq_false_iff_exists_mem]
    exact ⟨_, (marks_ends pattern before _ _).mpr ⟨stretch, after, rfl, hcovers, rfl⟩⟩

/-! ## Patterns that do not look around -/

/-- The pattern does not ask what stands before and after a stretch. -/
def IsFree : Pattern → Prop
  | .empty | .one _ => True
  | .between _ => False
  | .seq first second | .alt first second => first.IsFree ∧ second.IsFree
  | .times body _ _ => body.IsFree

theorem IsFree.covers {pattern : Pattern} (h : pattern.IsFree) {before stretch after : List Char}
    (hcovers : pattern.Covers before stretch after) (before' after' : List Char) :
    pattern.Covers before' stretch after' := by
  induction pattern generalizing before stretch after before' after' with
  | empty | one admits => exact hcovers
  | between holds => exact h.elim
  | seq first second ihFirst ihSecond =>
    obtain ⟨s, t, rfl, hs, ht⟩ := hcovers
    exact ⟨s, t, rfl, ihFirst h.1 hs _ _, ihSecond h.2 ht _ _⟩
  | alt first second ihFirst ihSecond =>
    exact hcovers.imp (ihFirst h.1 · _ _) (ihSecond h.2 · _ _)
  | times body least most ih =>
    obtain ⟨n, hleast, hmost, hrounds⟩ := hcovers
    refine ⟨n, hleast, hmost, ?_⟩
    clear hleast hmost
    induction n generalizing before stretch before' with
    | zero => exact hrounds
    | succ n ihRounds =>
      obtain ⟨s, t, rfl, hs, ht⟩ := hrounds
      exact ⟨s, t, rfl, ih h hs _ _, ihRounds _ ht⟩

/-- A pattern that does not look around is also in every text around the text. -/
theorem occursIn_append {pattern : Pattern} (hfree : pattern.IsFree) {text : List Char}
    (h : pattern.occursIn text = true) (before after : List Char) :
    pattern.occursIn (before ++ text ++ after) = true := by
  obtain ⟨first, stretch, last, rfl, hcovers⟩ := occursIn_iff_covers.mp h
  refine occursIn_iff_covers.mpr ⟨before ++ first, stretch, last ++ after, ?_,
    hfree.covers hcovers _ _⟩
  simp only [List.append_assoc]

theorem isIn_append {pattern : Pattern} (hfree : pattern.IsFree) {text : String}
    (h : pattern.isIn text = true) (before after : String) :
    pattern.isIn (before ++ text ++ after) = true := by
  rw [isIn, String.toList_append, String.toList_append]
  exact occursIn_append hfree h before.toList after.toList

section IsFree

variable {first second : Pattern}

@[simp] theorem isFree_one (admits : Char → Bool) : (Pattern.one admits).IsFree := trivial

@[simp] theorem isFree_append : (first ++ second).IsFree ↔ first.IsFree ∧ second.IsFree := Iff.rfl

@[simp] theorem isFree_or : (first ||| second).IsFree ↔ first.IsFree ∧ second.IsFree := Iff.rfl

@[simp] theorem isFree_many : (many first).IsFree ↔ first.IsFree := Iff.rfl

@[simp] theorem isFree_many1 : (many1 first).IsFree ↔ first.IsFree := Iff.rfl

@[simp] theorem isFree_maybe : (maybe first).IsFree ↔ first.IsFree := Iff.rfl

@[simp] theorem isFree_oneOf (s : String) : (oneOf s).IsFree := trivial

@[simp] theorem isFree_noneOf (s : String) : (noneOf s).IsFree := trivial

theorem isFree_chain {patterns : List Pattern} (h : ∀ pattern ∈ patterns, pattern.IsFree) :
    (chain patterns).IsFree := by
  fun_induction chain patterns with
  | case1 => trivial
  | case2 last => exact h last (List.mem_singleton_self last)
  | case3 first rest _ ih =>
    obtain ⟨hfirst, hrest⟩ := List.forall_mem_cons.mp h
    exact ⟨hfirst, ih hrest⟩

@[simp] theorem isFree_text (s : String) : (text s).IsFree := by
  refine isFree_chain fun pattern hpattern => ?_
  obtain ⟨c, -, rfl⟩ := List.mem_map.mp hpattern
  exact isFree_one _

theorem isFree_anyOf {others : List Pattern} (hfirst : first.IsFree)
    (h : ∀ pattern ∈ others, pattern.IsFree) : (anyOf first others).IsFree := by
  induction others generalizing first with
  | nil => exact hfirst
  | cons other others ih =>
    obtain ⟨hother, hothers⟩ := List.forall_mem_cons.mp h
    exact ih ⟨hfirst, hother⟩ hothers

end IsFree

/-! ## What the parts of patterns describe -/

section Covers

variable {first second : Pattern} {admits : Char → Bool} {before stretch after : List Char}

theorem rounds_one_iff {n : Nat} :
    (Pattern.one admits).Covers.rounds n before stretch after ↔
      stretch.length = n ∧ ∀ c ∈ stretch, admits c = true := by
  induction n generalizing before stretch with
  | zero =>
    rw [List.length_eq_zero_iff]
    refine ⟨?_, And.left⟩
    rintro rfl
    exact ⟨rfl, fun _ hc => (List.not_mem_nil hc).elim⟩
  | succ n ih =>
    constructor
    · rintro ⟨_, t, rfl, ⟨c, rfl, hc⟩, ht⟩
      obtain ⟨rfl, hall⟩ := ih.mp ht
      exact ⟨rfl, List.forall_mem_cons.mpr ⟨hc, hall⟩⟩
    · rintro ⟨hlength, hall⟩
      cases stretch with
      | nil => cases hlength
      | cons c stretch =>
        obtain ⟨hc, hall⟩ := List.forall_mem_cons.mp hall
        exact ⟨[c], stretch, rfl, ⟨c, rfl, hc⟩, ih.mpr ⟨Nat.succ.inj hlength, hall⟩⟩

theorem covers_times_one {least : Nat} :
    (Pattern.times (.one admits) least none).Covers before stretch after ↔
      least ≤ stretch.length ∧ ∀ c ∈ stretch, admits c = true := by
  constructor
  · rintro ⟨n, hleast, -, hrounds⟩
    obtain ⟨rfl, hall⟩ := rounds_one_iff.mp hrounds
    exact ⟨hleast, hall⟩
  · rintro ⟨hleast, hall⟩
    exact ⟨_, hleast, by simp, rounds_one_iff.mpr ⟨rfl, hall⟩⟩

theorem covers_many_one : (many (.one admits)).Covers before stretch after ↔
    ∀ c ∈ stretch, admits c = true :=
  covers_times_one.trans (and_iff_right (Nat.zero_le _))

theorem covers_many1_one : (many1 (.one admits)).Covers before stretch after ↔
    stretch ≠ [] ∧ ∀ c ∈ stretch, admits c = true :=
  covers_times_one.trans (and_congr_left fun _ => List.length_pos_iff)

theorem covers_maybe : (maybe first).Covers before stretch after ↔
    stretch = [] ∨ first.Covers before stretch after := by
  constructor
  · rintro ⟨n, -, hmost, hrounds⟩
    obtain rfl | rfl := Nat.le_one_iff_eq_zero_or_eq_one.mp (hmost 1 rfl)
    · exact .inl hrounds
    · rw [Condition.rounds, Condition.rounds, Condition.andThen_nothing] at hrounds
      exact .inr hrounds
  · rintro (rfl | h)
    · exact ⟨0, Nat.le_refl 0, by simp, rfl⟩
    · refine ⟨1, Nat.zero_le 1, by simp, ?_⟩
      rwa [Condition.rounds, Condition.rounds, Condition.andThen_nothing]

theorem covers_atEnd : atEnd.Covers before stretch after ↔ stretch = [] ∧ after = [] :=
  and_congr_right fun _ => Option.isNone_iff_eq_none.trans List.head?_eq_none_iff

theorem covers_atStart : atStart.Covers before stretch after ↔ stretch = [] ∧ before = [] :=
  and_congr_right fun _ => Option.isNone_iff_eq_none.trans List.getLast?_eq_none_iff

/-- A text is described as a whole if it is a stretch with nothing around it. -/
theorem describes_iff {pattern : Pattern} {text : String} :
    pattern.describes text = true ↔ pattern.Covers [] text.toList [] := by
  rw [describes, isIn, occursIn_iff_covers]
  constructor
  · rintro ⟨before, stretch, after, htext, _, rest, rfl, ⟨first, body, rfl, hfirst, hbody⟩, hrest⟩
    obtain ⟨rfl, rfl⟩ := covers_atStart.mp hfirst
    obtain ⟨rfl, rfl⟩ := covers_atEnd.mp hrest
    simp only [List.nil_append, List.append_nil] at htext hbody
    rwa [htext]
  · intro h
    refine ⟨[], text.toList, [], by simp, text.toList, [], by simp, ⟨[], text.toList, rfl, ?_, ?_⟩,
      ?_⟩
    · exact covers_atStart.mpr ⟨rfl, rfl⟩
    · exact h
    · exact covers_atEnd.mpr ⟨rfl, rfl⟩

theorem covers_append_maybe (h : first.Covers before stretch after) :
    (first ++ maybe second).Covers before stretch after :=
  ⟨stretch, [], (List.append_nil stretch).symm, h, covers_maybe.mpr (.inl rfl)⟩

/-- A chain of patterns for one character each describes one character for each of them. -/
theorem covers_chain_ones {admits : Char → Char → Bool} {chars : List Char} :
    (chain (chars.map fun c => .one (admits c))).Covers before stretch after ↔
      List.Forall₂ (fun c d => admits c d = true) chars stretch := by
  induction chars generalizing before stretch with
  | nil => exact List.forall₂_nil_left_iff.symm
  | cons c chars ih =>
    rw [List.forall₂_cons_left_iff]
    cases chars with
    | nil =>
      constructor
      · rintro ⟨d, rfl, hd⟩
        exact ⟨d, [], hd, .nil, rfl⟩
      · rintro ⟨d, rest, hd, hrest, rfl⟩
        cases hrest
        exact ⟨d, rfl, hd⟩
    | cons next chars =>
      constructor
      · rintro ⟨_, t, rfl, ⟨d, rfl, hd⟩, ht⟩
        exact ⟨d, t, hd, ih.mp ht, rfl⟩
      · rintro ⟨d, rest, hd, hrest, rfl⟩
        exact ⟨[d], rest, rfl, ⟨d, rfl, hd⟩, ih.mpr hrest⟩

theorem covers_text {s : String} : (text s).Covers before stretch after ↔ stretch = s.toList := by
  have hsame : (fun c d : Char => (d == c) = true) = fun c d => c = d := by
    funext c d
    exact propext (beq_iff_eq.trans eq_comm)
  refine covers_chain_ones.trans ?_
  rw [hsame, List.forall₂_eq_eq_eq]
  exact eq_comm

theorem covers_anyOf {others : List Pattern} : (anyOf first others).Covers before stretch after ↔
    first.Covers before stretch after ∨ ∃ pattern ∈ others, pattern.Covers before stretch after := by
  induction others generalizing first with
  | nil => simp [anyOf]
  | cons other others ih =>
    rw [anyOf, List.foldl_cons, ← anyOf, ih, List.exists_mem_cons_iff, ← or_assoc]
    rfl

end Covers

end Pattern

end WorkflowRecipes
