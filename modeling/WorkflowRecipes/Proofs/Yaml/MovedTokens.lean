import WorkflowRecipes.Yaml.Token
import WorkflowRecipes.Proofs.Yaml.MovedText

/-!
# Tokens at another place

The cut of a text into tokens compares places only with one another and with the start of a line,
so a text that starts further down a stream, at the start of a line, has the tokens it has at the
start of the stream.

Results:
1. `Scan.finish?_of_toToken`: two cuts that come to the same text go on with the same tokens.
2. `tokens?_after_marker`: behind a marker line a text has the tokens it has at the start.
-/

namespace WorkflowRecipes.Yaml

open Cursor

section

variable {i l : Nat}

/-! ## Names, tags and directives -/

theorem length_percentOctet?_lt {s rest : List Char} {octet : Nat}
    (h : percentOctet? s = some (octet, rest)) : rest.length < s.length := by
  unfold percentOctet? at h
  split at h
  · exact Nat.lt_succ_of_le (length_hexDigits?_le h)
  · cases h

theorem length_trailingOctets?_le {n acc value : Nat} {s rest : List Char}
    (h : trailingOctets? n acc s = some (value, rest)) : rest.length ≤ s.length := by
  induction n generalizing acc s with
  | zero =>
    cases h
    exact Nat.le_refl _
  | succ n ih =>
    obtain ⟨⟨octet, s'⟩, hoctet, h⟩ := Option.bind_eq_some_iff.mp h
    have hlt := length_percentOctet?_lt hoctet
    dsimp only at h
    split at h
    · exact Nat.le_trans (ih h) (Nat.le_of_lt hlt)
    · cases h

theorem length_percentChar?_lt {s rest : List Char} {c : Char} {width : Nat}
    (h : percentChar? s = some (c, width, rest)) : rest.length < s.length := by
  obtain ⟨⟨octet, s'⟩, hoctet, h⟩ := Option.bind_eq_some_iff.mp h
  obtain ⟨⟨width', bits⟩, -, h⟩ := Option.bind_eq_some_iff.mp h
  obtain ⟨⟨value, rest'⟩, htrailing, h⟩ := Option.bind_eq_some_iff.mp h
  dsimp only at h
  split at h
  · cases h
    exact Nat.lt_of_le_of_lt (length_trailingOctets?_le htrailing) (length_percentOctet?_lt hoctet)
  · cases h

theorem tagRun?_moved {verbatim : Bool} {n m : Nat} {c : Cursor} (hn : c.rest.length ≤ n)
    (hm : c.rest.length ≤ m) :
    Option.Rel (Beside (Agree i l c.rest.length)) (tagRun? verbatim n c)
      (tagRun? verbatim m (c.moved i l)) := by
  refine step_induction (P := fun n m c => Option.Rel (Beside (Agree i l c.rest.length))
    (tagRun? verbatim n c) (tagRun? verbatim m (c.moved i l))) ?_ ?_ hn hm
  · intro n m c hrest
    have hnil : ∀ {n : Nat} {c : Cursor}, c.rest = [] → tagRun? verbatim n c = some ([], c) := by
      intro n c hrest
      cases n with
      | zero => rfl
      | succ n => rw [tagRun?, hrest]
    rw [hnil hrest, hnil (c := c.moved i l) hrest]
    exact .some ⟨rfl, .rfl c⟩
  · intro n m c ih
    rw [tagRun?, tagRun?, rest_moved]
    have hself : Agree i l c.rest.length c (c.moved i l) := .rfl c
    have hnext : ∀ k rest d, rest.length < c.rest.length →
        Option.Rel (Beside (Agree i l c.rest.length))
          ((tagRun? verbatim n (c.past k rest)).map fun run => (d :: run.1, run.2))
          ((tagRun? verbatim m ((c.moved i l).past k rest)).map fun run =>
            (d :: run.1, run.2)) := by
      intro k rest d hlt
      rw [past_moved]
      refine rel_map (ih (c.past k rest) hlt) ?_
      rintro ⟨text, e⟩ ⟨_, e'⟩ - ⟨rfl, he⟩
      exact ⟨rfl, he.mono (Nat.le_of_lt hlt)⟩
    split
    · exact .some ⟨rfl, hself⟩
    · next d s hrest =>
      refine rel_ite (fun _ => rel_bind_same ?_) fun _ => rel_ite (fun _ => ?_) fun _ =>
        .some ⟨rfl, hself⟩
      · rintro ⟨e, width, rest⟩ hchar
        exact hnext _ _ _ (length_percentChar?_lt hchar)
      · exact hnext _ _ _ (by rw [hrest]; exact Nat.lt_succ_self _)

theorem tagHandle?_moved (c : Cursor) :
    Option.Rel (Beside (Agree i l c.skip.rest.length)) (tagHandle? c)
      (tagHandle? (c.moved i l)) := by
  have hname := length_takeRun_le c.skip isNameChar
  have hskip := length_skip_le (c.skip.takeRun isNameChar).2
  unfold tagHandle?
  simp only [isAt_moved, skip_moved, takeRun_moved]
  exact rel_ite (fun _ => rel_ite (fun _ => .some ⟨rfl, rfl, Nat.le_trans hskip hname⟩)
    fun _ => .some ⟨rfl, rfl, hname⟩) fun _ => .none

theorem tag?_moved {flow : Bool} {size size' : Nat} {c : Cursor} (hsize : c.rest.length ≤ size)
    (hsize' : c.rest.length ≤ size') :
    Option.Rel (Beside (Agree i l c.skip.rest.length)) (tag? flow size c)
      (tag? flow size' (c.moved i l)) := by
  have hone := length_skip_le c
  have htwo := length_skip_le c.skip
  unfold tag?
  refine rel_bind (R := Beside (Beside (Agree i l c.skip.rest.length))) ?_ ?_
  · rw [rest_moved]
    split
    · rw [skip_moved, skip_moved]
      refine rel_bind (tagRun?_moved (by omega) (by omega)) ?_
      rintro ⟨text, d⟩ ⟨_, d'⟩ - ⟨rfl, rfl, hd⟩
      have hle : d.skip.rest.length ≤ c.skip.rest.length :=
        Nat.le_trans (length_skip_le d) (Nat.le_trans hd htwo)
      dsimp only
      rw [isAt_moved, skip_moved]
      exact rel_ite (fun _ => .some ⟨rfl, rfl, rfl, hle⟩) fun _ => .none
    · refine rel_bind (tagHandle?_moved c) ?_
      rintro ⟨handle, d⟩ ⟨_, d'⟩ - ⟨rfl, rfl, hd⟩
      dsimp only at hd ⊢
      refine rel_bind (tagRun?_moved (by omega) (by omega)) ?_
      rintro ⟨text, e⟩ ⟨_, e'⟩ - ⟨rfl, rfl, he⟩
      have hboth : e.rest.length ≤ c.skip.rest.length := Nat.le_trans he hd
      exact rel_ite
        (fun _ => rel_ite (fun _ => .none) fun _ => .some ⟨rfl, rfl, rfl, hboth⟩)
        fun _ => rel_ite (fun _ => .some ⟨rfl, rfl, rfl, hboth⟩)
          fun _ => .some ⟨rfl, rfl, rfl, hboth⟩
  · rintro ⟨handle, suffix, d⟩ ⟨_, _, d'⟩ - ⟨rfl, rfl, rfl, hd⟩
    exact rel_ite (fun _ => .some ⟨rfl, rfl, hd⟩) fun _ => .none

theorem anchorName?_moved (c : Cursor) :
    Option.Rel (Beside (Agree i l c.rest.length)) (anchorName? c)
      (anchorName? (c.moved i l)) := by
  have hname := length_takeRun_le c isNameChar
  unfold anchorName?
  simp only [takeRun_moved, rest_moved, sees_moved]
  exact rel_ite (fun _ => .some ⟨rfl, rfl, hname⟩) fun _ => .none

theorem shortNumber?_moved (c : Cursor) :
    Option.Rel (Beside (Agree i l c.rest.length)) (shortNumber? c)
      (shortNumber? (c.moved i l)) := by
  have hdigits := length_takeRun_le c Char.isDigit
  unfold shortNumber?
  simp only [takeRun_moved]
  exact rel_ite (fun _ => .none) fun _ => .some ⟨rfl, rfl, hdigits⟩

theorem directive?_moved {size size' : Nat} {c : Cursor} (hsize : c.rest.length ≤ size)
    (hsize' : c.rest.length ≤ size') :
    Option.Rel (Beside (Agree i l c.skip.rest.length)) (directive? size c)
      (directive? size' (c.moved i l)) := by
  have hone := length_skip_le c
  have hname := length_takeRun_le c.skip isNameChar
  have hgap := length_takeRun_le (c.skip.takeRun isNameChar).2 isGap
  unfold directive?
  simp only [skip_moved, takeRun_moved, rest_moved, skipRun_moved]
  refine rel_ite (fun _ => .none) fun _ => ?_
  generalize hstart : ((c.skip.takeRun isNameChar).2.skipRun isGap) = start
  have hle : start.rest.length ≤ c.skip.rest.length := by
    rw [← hstart]
    exact Nat.le_trans hgap hname
  refine rel_bind (R := Beside (Agree i l c.skip.rest.length)) ?_ ?_
  · refine rel_ite (fun _ => ?_) fun _ => rel_ite (fun _ => ?_) fun _ => .none
    · refine rel_bind (shortNumber?_moved start) ?_
      rintro ⟨major, d⟩ ⟨_, d'⟩ - ⟨rfl, rfl, hd⟩
      have hskip := length_skip_le d
      dsimp only at hd ⊢
      rw [isAt_moved, skip_moved]
      refine rel_ite (fun _ => rel_map (shortNumber?_moved d.skip) ?_) fun _ => .none
      rintro ⟨minor, e⟩ ⟨_, e'⟩ - ⟨rfl, he⟩
      exact ⟨rfl, he.mono (by omega)⟩
    · refine rel_bind (tagHandle?_moved start) ?_
      rintro ⟨handle, d⟩ ⟨_, d'⟩ - ⟨rfl, rfl, hd⟩
      have hskip := length_skip_le start
      have hrun := length_takeRun_le d isGap
      dsimp only at hd ⊢
      rw [sees_moved, skipRun_moved]
      refine rel_ite (fun _ => ?_) fun _ => .none
      have hsmall : (d.skipRun isGap).rest.length ≤ start.skip.rest.length := Nat.le_trans hrun hd
      refine rel_bind (tagRun?_moved (by omega) (by omega)) ?_
      rintro ⟨text, e⟩ ⟨_, e'⟩ - ⟨rfl, rfl, he⟩
      have hboth : e.rest.length ≤ c.skip.rest.length :=
        Nat.le_trans he (Nat.le_trans hsmall (Nat.le_trans hskip hle))
      dsimp only
      rw [rest_moved]
      exact rel_ite (fun _ => .some ⟨rfl, rfl, hboth⟩) fun _ => .none
  · rintro ⟨token, d⟩ ⟨_, d'⟩ - ⟨rfl, rfl, hd⟩
    refine rel_map (finishLine?_moved d) fun e e' _ he => ⟨rfl, he.mono hd⟩

end

/-! ## The state of the cut -/

/-- The same place of a key, so many characters and lines further on. -/
def PendingKey.moved (key : PendingKey) (i l : Nat) : PendingKey :=
  { key with index := key.index + i, line := key.line + l }

namespace Scan

/-- The same state, so many characters and lines further on. -/
def moved (s : Scan) (i l : Nat) : Scan :=
  { s with
    cursor := s.cursor.moved i l
    pending := s.pending.map (·.moved i l)
    outer := s.outer.map fun key => key.map (·.moved i l) }

/-- The second state is the first one moved, which stands at the cursor `c`. -/
structure At (i l : Nat) (c : Cursor) (s t : Scan) : Prop where
  moved : t = s.moved i l
  cursor : s.cursor = c

/-- The second state is the first one moved, with at most `bound` characters behind it. -/
structure Agree (i l bound : Nat) (s t : Scan) : Prop where
  moved : t = s.moved i l
  length_le : s.cursor.rest.length ≤ bound

variable {i l : Nat} {s : Scan}

theorem At.agree {c : Cursor} {t : Scan} (h : At i l c s t) : Agree i l c.rest.length s t :=
  ⟨h.moved, Nat.le_of_eq (by rw [h.cursor])⟩

@[simp] theorem cursor_moved : (s.moved i l).cursor = s.cursor.moved i l := rfl

@[simp] theorem tokens_moved : (s.moved i l).tokens = s.tokens := rfl

@[simp] theorem indents_moved : (s.moved i l).indents = s.indents := rfl

@[simp] theorem keyAllowed_moved : (s.moved i l).keyAllowed = s.keyAllowed := rfl

@[simp] theorem flow_moved : (s.moved i l).flow = s.flow := by
  simp [flow, moved]

@[simp] theorem unroll_moved (column : Option Nat) :
    (s.moved i l).unroll column = (s.unroll column).moved i l := by
  unfold unroll
  rw [flow_moved]
  split <;> rfl

@[simp] theorem cursor_unroll (column : Option Nat) : (s.unroll column).cursor = s.cursor := by
  unfold unroll
  split <;> rfl

@[simp] theorem roll_moved (column position : Nat) (start : Token) :
    (s.moved i l).roll column position start = (s.roll column position start).moved i l := by
  unfold roll
  rw [flow_moved, indents_moved]
  split <;> rfl

@[simp] theorem cursor_roll (column position : Nat) (start : Token) :
    (s.roll column position start).cursor = s.cursor := by
  unfold roll
  split <;> rfl

theorem pushSkip_moved (token : Token) :
    (s.moved i l).pushSkip token = (s.pushSkip token).moved i l := by
  simp [pushSkip, push, moved]

theorem expire?_moved (c : Cursor) (key : Option PendingKey) :
    expire? (c.moved i l) (key.map (·.moved i l)) =
      (expire? c key).map fun key => key.map (·.moved i l) := by
  cases key with
  | none => rfl
  | some key =>
    have hline : decide ((key.moved i l).line < (c.moved i l).line) =
        decide (key.line < c.line) :=
      decide_eq_decide.mpr Nat.add_lt_add_iff_right
    have hindex : decide ((key.moved i l).index + 1024 < (c.moved i l).index) =
        decide (key.index + 1024 < c.index) := by
      refine decide_eq_decide.mpr ?_
      simp only [PendingKey.moved, Cursor.moved]
      omega
    rw [Option.map_some, expire?, expire?, hline, hindex]
    split
    · show (if key.required then none else some none) = _
      split <;> rfl
    · rfl

theorem mapM_expire?_moved (c : Cursor) (keys : List (Option PendingKey)) :
    (keys.map fun key => key.map (·.moved i l)).mapM (expire? (c.moved i l)) =
      (keys.mapM (expire? c)).map fun keys => keys.map fun key => key.map (·.moved i l) := by
  induction keys with
  | nil => rfl
  | cons key keys ih =>
    rw [List.map_cons, List.mapM_cons, List.mapM_cons, ih, expire?_moved]
    cases expire? c key with
    | none => rfl
    | some key => cases keys.mapM (expire? c) <;> rfl

theorem expireAll?_moved :
    Option.Rel (At i l s.cursor) s.expireAll? (s.moved i l).expireAll? := by
  have hkey := expire?_moved (i := i) (l := l) s.cursor s.pending
  have hkeys := mapM_expire?_moved (i := i) (l := l) s.cursor s.outer
  unfold expireAll? moved
  rw [hkey, hkeys]
  cases expire? s.cursor s.pending with
  | none => exact .none
  | some key =>
    cases s.outer.mapM (expire? s.cursor) with
    | none => exact .none
    | some keys => exact .some ⟨rfl, rfl⟩

theorem dropKey?_moved :
    Option.Rel (At i l s.cursor) s.dropKey? (s.moved i l).dropKey? := by
  have hsame : (s.moved i l).pending.any (·.required) = s.pending.any (·.required) := by
    cases hp : s.pending <;> simp [moved, hp, PendingKey.moved]
  unfold dropKey?
  rw [hsame]
  exact rel_ite (fun _ => .none) fun _ => .some ⟨rfl, rfl⟩

theorem saveKey?_moved :
    Option.Rel (At i l s.cursor) s.saveKey? (s.moved i l).saveKey? := by
  unfold saveKey?
  rw [keyAllowed_moved]
  refine rel_ite (fun _ => rel_map dropKey?_moved ?_) fun _ => .some ⟨rfl, rfl⟩
  rintro t _ - ⟨rfl, hcursor⟩
  refine ⟨?_, hcursor⟩
  simp [moved, PendingKey.moved, Cursor.moved, flow]

/-! ## Between tokens -/

/-- The cursor behind a byte order mark, gaps and a comment. -/
def afterGap (s : Scan) : Cursor :=
  let c := if s.cursor.column == 0 && s.cursor.isAt '\uFEFF' then s.cursor.skip else s.cursor
  (c.skipRun fun d => d == ' ' || ((s.flow || !s.keyAllowed) && d == '\t')).skipComment

theorem toToken_succ (n : Nat) (s : Scan) :
    s.toToken (n + 1) =
      if s.afterGap.sees isBreak then
        toToken n { s with
          cursor := s.afterGap.readBreak.2, keyAllowed := s.keyAllowed || !s.flow }
      else { s with cursor := s.afterGap } := rfl

theorem length_afterGap_le (s : Scan) :
    s.afterGap.rest.length ≤ s.cursor.rest.length := by
  refine Nat.le_trans (length_skipComment_le _) (Nat.le_trans (length_takeRun_le _ _) ?_)
  split
  · exact length_skip_le s.cursor
  · exact Nat.le_refl _

theorem afterGap_moved : (s.moved i l).afterGap = s.afterGap.moved i l := by
  unfold afterGap
  simp only [cursor_moved, column_moved, isAt_moved, skip_moved, flow_moved, keyAllowed_moved]
  split <;> simp only [skipRun_moved, skipComment_moved]

theorem toToken_moved {n m : Nat} (hn : s.cursor.rest.length ≤ n)
    (hm : s.cursor.rest.length ≤ m) :
    Agree i l s.cursor.rest.length (s.toToken (n + 1)) ((s.moved i l).toToken (m + 1)) := by
  induction n generalizing s m with
  | zero =>
    have hgap := length_afterGap_le s
    have hdone : ¬ s.afterGap.sees isBreak = true := fun hbreak => by
      have := length_readBreak_lt hbreak
      omega
    rw [toToken_succ, toToken_succ, afterGap_moved, sees_moved, if_neg hdone, if_neg hdone]
    exact ⟨rfl, hgap⟩
  | succ n ih =>
    have hgap := length_afterGap_le s
    rw [toToken_succ (n + 1) s, toToken_succ m, afterGap_moved, sees_moved]
    by_cases hbreak : s.afterGap.sees isBreak = true
    · have hlt := length_readBreak_lt hbreak
      rw [if_pos hbreak, if_pos hbreak, readBreak_moved, flow_moved]
      cases m with
      | zero => omega
      | succ m =>
        obtain ⟨hmoved, hle⟩ := ih (m := m) (s := { s with
          cursor := s.afterGap.readBreak.2, keyAllowed := s.keyAllowed || !s.flow })
          (by dsimp only; omega) (by dsimp only; omega)
        exact ⟨hmoved, Nat.le_trans hle (by dsimp only; omega)⟩
    · rw [if_neg hbreak, if_neg hbreak]
      exact ⟨rfl, hgap⟩

/-! ## Single tokens -/

theorem openFlow?_moved (start : Token) :
    Option.Rel (At i l s.cursor.skip) (s.openFlow? start) ((s.moved i l).openFlow? start) := by
  refine rel_map saveKey?_moved ?_
  rintro t _ - ⟨rfl, hcursor⟩
  refine ⟨?_, by rw [← hcursor]; rfl⟩
  rw [pushSkip_moved]
  rfl

theorem closeFlow?_moved (stop : Token) :
    Option.Rel (At i l s.cursor.skip) (s.closeFlow? stop) ((s.moved i l).closeFlow? stop) := by
  refine rel_map dropKey?_moved ?_
  rintro t _ - ⟨rfl, hcursor⟩
  refine ⟨?_, by rw [← hcursor]; rfl⟩
  rw [pushSkip_moved]
  cases houter : t.outer <;> simp [moved, houter]

/-- A one-character token behind which keys are allowed or not. -/
theorem mark_moved {t t' : Scan} {c : Cursor} (h : At i l c t t') (token : Token)
    (allowed : Bool) :
    At i l c.skip { t.pushSkip token with keyAllowed := allowed }
      { t'.pushSkip token with keyAllowed := allowed } := by
  obtain ⟨rfl, rfl⟩ := h
  refine ⟨?_, rfl⟩
  rw [pushSkip_moved]
  rfl

theorem dropRoll?_moved (column position : Nat) (start : Token) :
    Option.Rel (At i l s.cursor) (s.roll column position start).dropKey?
      ((s.moved i l).roll column position start).dropKey? := by
  have h := dropKey?_moved (i := i) (l := l) (s := s.roll column position start)
  rwa [cursor_roll, ← roll_moved] at h

theorem blockEntry?_moved :
    Option.Rel (At i l s.cursor.skip) s.blockEntry? (Scan.blockEntry? (s.moved i l)) := by
  unfold blockEntry?
  rw [flow_moved, keyAllowed_moved]
  refine rel_ite (fun _ => rel_map dropKey?_moved fun _ _ _ h => mark_moved h _ _) fun _ =>
    rel_ite (fun _ => ?_) fun _ => .none
  exact rel_map (dropRoll?_moved _ _ _) fun _ _ _ h => mark_moved h _ _

theorem keyMark?_moved :
    Option.Rel (At i l s.cursor.skip) s.keyMark? (s.moved i l).keyMark? := by
  unfold keyMark?
  rw [flow_moved, keyAllowed_moved]
  refine rel_ite (fun _ => rel_map (dropRoll?_moved _ _ _) ?_) fun _ => .none
  rintro t _ - ⟨rfl, hcursor⟩
  rw [flow_moved]
  exact mark_moved ⟨rfl, hcursor⟩ _ _

theorem valueMark?_moved :
    Option.Rel (At i l s.cursor.skip) s.valueMark? (s.moved i l).valueMark? := by
  unfold valueMark?
  cases hpending : s.pending with
  | none =>
    have hnone : (s.moved i l).pending = none := by simp [moved, hpending]
    rw [hnone]
    dsimp only
    rw [flow_moved, keyAllowed_moved, cursor_moved, column_moved, tokens_moved, roll_moved]
    refine rel_ite (fun _ => .some ?_) fun _ => .none
    rw [flow_moved]
    exact mark_moved ⟨rfl, cursor_roll _ _ _⟩ _ _
  | some key =>
    have hsome : (s.moved i l).pending = some (key.moved i l) := by simp [moved, hpending]
    rw [hsome]
    let keyed : Scan := { s with
      tokens := s.tokens.insertIdxIfInBounds key.position .key, pending := some key }
    let rolled : Scan := keyed.roll key.column key.position .blockMappingStart
    have hrolled : (keyed.moved i l).roll key.column key.position .blockMappingStart =
        rolled.moved i l := roll_moved _ _ _
    have hcursor : rolled.cursor = s.cursor := cursor_roll _ _ _
    refine .some ⟨?_, congrArg Cursor.skip hcursor⟩
    show { ((keyed.moved i l).roll key.column key.position .blockMappingStart).pushSkip .value with
      pending := none, keyAllowed := false } = _
    rw [hrolled, pushSkip_moved]
    rfl

theorem keyPart?_moved {bound : Nat} {read read' : Cursor → Option (Token × Cursor)}
    (hread : Option.Rel (Beside (Cursor.Agree i l bound)) (read s.cursor)
      (read' (s.cursor.moved i l))) :
    Option.Rel (Agree i l bound) (s.keyPart? read) ((s.moved i l).keyPart? read') := by
  refine rel_bind saveKey?_moved ?_
  rintro t _ - ⟨rfl, hcursor⟩
  rw [cursor_moved, hcursor]
  refine rel_map hread ?_
  rintro ⟨token, c⟩ ⟨_, c'⟩ - ⟨rfl, rfl, hle⟩
  exact ⟨rfl, hle⟩

theorem plain?_moved {size size' : Nat} {d : Char} {after : List Char}
    (hrest : s.cursor.rest = d :: after) (hcomment : d ≠ '#')
    (hmark : ((d == ':' && atWordEnd after) || (s.flow && isFlowDelimiter d)) = false)
    (hsize : s.cursor.rest.length ≤ size) (hsize' : s.cursor.rest.length ≤ size') :
    Option.Rel (Agree i l after.length) (s.plain? size) ((s.moved i l).plain? size') := by
  refine rel_bind saveKey?_moved ?_
  rintro t _ hsaved ⟨rfl, hcursor⟩
  have hflow : t.flow = s.flow := by
    unfold saveKey? dropKey? at hsaved
    split at hsaved
    · split at hsaved <;> cases hsaved
      rfl
    · cases hsaved
      rfl
  dsimp only
  rw [flow_moved, indents_moved, cursor_moved, hcursor, hflow]
  refine rel_map (plainScalar?_moved hsize hsize') ?_
  rintro ⟨text, broken, c⟩ ⟨_, _, c'⟩ hplain ⟨rfl, rfl, rfl, -⟩
  have hlt := length_plainScalar?_lt hrest hcomment hmark hsize hplain
  exact ⟨rfl, Nat.le_of_lt_succ (by rwa [hrest] at hlt)⟩

theorem block?_moved {size size' : Nat} (hsize : s.cursor.rest.length ≤ size)
    (hsize' : s.cursor.rest.length ≤ size') :
    Option.Rel (Agree i l s.cursor.skip.rest.length) (s.block? size)
      ((s.moved i l).block? size') := by
  refine rel_bind dropKey?_moved ?_
  rintro t _ - ⟨rfl, hcursor⟩
  dsimp only
  rw [cursor_moved, isAt_moved, indents_moved, hcursor]
  refine rel_map (blockScalar?_moved hsize hsize') ?_
  rintro ⟨text, c⟩ ⟨_, c'⟩ - ⟨rfl, rfl, hle⟩
  exact ⟨rfl, hle⟩

/-! ## All tokens -/

theorem fetch?_moved {size size' : Nat} {d : Char} {after : List Char}
    (hrest : s.cursor.rest = d :: after) (hsize : s.cursor.rest.length ≤ size)
    (hsize' : s.cursor.rest.length ≤ size') :
    Option.Rel (Agree i l after.length) (s.fetch? size d after)
      ((s.moved i l).fetch? size' d after) := by
  have hskip : s.cursor.skip.rest = after := rest_skip hrest
  have hafter : ∀ {x y}, Option.Rel (At i l s.cursor.skip) x y →
      Option.Rel (Agree i l after.length) x y :=
    fun h => rel_imp h fun _ _ h => by simpa only [hskip] using h.agree
  have hanchor := anchorName?_moved (i := i) (l := l) s.cursor.skip
  have htag : Option.Rel (Beside (Cursor.Agree i l s.cursor.skip.rest.length))
      (tag? s.flow size s.cursor) (tag? s.flow size' (s.cursor.moved i l)) := tag?_moved hsize hsize'
  have hquoted := quotedScalar?_moved (i := i) (l := l) hsize hsize'
  have hblock := block?_moved (i := i) (l := l) hsize hsize'
  rw [hskip] at hanchor htag hquoted hblock
  unfold fetch?
  simp only [cursor_moved, column_moved, flow_moved]
  refine rel_ite (fun _ => ?directive) fun _ =>
    rel_ite (fun _ => hafter (openFlow?_moved _)) fun hsequence =>
    rel_ite (fun _ => hafter (openFlow?_moved _)) fun hmapping =>
    rel_ite (fun _ => hafter (closeFlow?_moved _)) fun hsequenceEnd =>
    rel_ite (fun _ => hafter (closeFlow?_moved _)) fun hmappingEnd =>
    rel_ite (fun _ => hafter (rel_map dropKey?_moved fun _ _ _ h => mark_moved h _ _))
      fun hcomma =>
    rel_ite (fun _ => hafter blockEntry?_moved) fun _ =>
    rel_ite (fun _ => hafter keyMark?_moved) fun _ =>
    rel_ite (fun _ => hafter valueMark?_moved) fun hvalue =>
    rel_ite (fun _ => keyPart?_moved ?reference) fun _ =>
    rel_ite (fun _ => keyPart?_moved ?anchor) fun _ =>
    rel_ite (fun _ => keyPart?_moved htag) fun _ =>
    rel_ite (fun _ => hblock) fun _ =>
    rel_ite (fun _ => keyPart?_moved ?quoted) fun _ =>
    rel_ite (fun hplain => plain?_moved hrest ?comment ?mark hsize hsize') fun _ => .none
  case directive =>
    have hdropped := dropKey?_moved (i := i) (l := l) (s := s.unroll none)
    rw [← unroll_moved, cursor_unroll] at hdropped
    refine rel_bind hdropped ?_
    rintro t _ - ⟨rfl, hcursor⟩
    have hdirective := directive?_moved (i := i) (l := l) hsize hsize'
    rw [hskip] at hdirective
    rw [cursor_moved, hcursor]
    refine rel_map hdirective ?_
    rintro ⟨token, c⟩ ⟨_, c'⟩ - ⟨rfl, rfl, hle⟩
    exact ⟨rfl, hle⟩
  case reference | anchor =>
    rw [skip_moved]
    refine rel_map hanchor ?_
    rintro ⟨name, c⟩ ⟨_, c'⟩ - ⟨rfl, hc⟩
    exact ⟨rfl, hc⟩
  case quoted =>
    refine rel_map hquoted ?_
    rintro ⟨text, c⟩ ⟨_, c'⟩ - ⟨rfl, hc⟩
    exact ⟨rfl, hc⟩
  case comment =>
    rintro rfl
    simp [isIndicator] at hplain
  case mark =>
    have hdelimiter : isFlowDelimiter d = false := by
      simp only [beq_iff_eq] at hsequence hmapping hsequenceEnd hmappingEnd hcomma
      simp [isFlowDelimiter, hsequence, hmapping, hsequenceEnd, hmappingEnd, hcomma]
    simp only [Bool.and_eq_true, Bool.or_eq_true, not_and, not_or] at hvalue
    rw [hdelimiter, Bool.and_false, Bool.or_false, Bool.and_eq_false_imp]
    exact fun hcolon => by simpa using (hvalue hcolon).2

/-- The same tokens follow where the next ones start at the same text. -/
theorem finish?_of_toToken {bound size size' n m : Nat} {t : Scan}
    (h : Agree i l bound (s.toToken (size + 1)) (t.toToken (size' + 1))) (hn : bound < n)
    (hm : bound < m) (hsize : bound ≤ size) (hsize' : bound ≤ size') :
    finish? size n s = finish? size' m t := by
  induction n generalizing s t m bound with
  | zero => exact absurd hn (Nat.not_lt_zero _)
  | succ n ih =>
    cases m with
    | zero => exact absurd hm (Nat.not_lt_zero _)
    | succ m =>
      obtain ⟨hmoved, hle⟩ := h
      rw [finish?, finish?, hmoved]
      refine rel_eq.mp (rel_bind expireAll?_moved ?_)
      rintro u _ - ⟨rfl, hcursor⟩
      rw [cursor_moved, rest_moved, column_moved, unroll_moved, unroll_moved]
      split
      · refine rel_map dropKey?_moved ?_
        rintro v _ - ⟨rfl, -⟩
        rfl
      · next d after hrest =>
        have hafter : after.length < bound := by
          rw [← hcursor, hrest] at hle
          exact hle
        have hunroll : (u.unroll (some u.cursor.column)).cursor.rest = d :: after := by
          rw [cursor_unroll, hrest]
        have hlength : (u.unroll (some u.cursor.column)).cursor.rest.length = after.length + 1 :=
          congrArg List.length hunroll
        refine rel_bind (fetch?_moved hunroll (by omega) (by omega)) ?_
        rintro v _ - ⟨rfl, hv⟩
        exact rel_eq.mpr (ih (toToken_moved (by omega) (by omega)) (by omega) (by omega)
          (by omega) (by omega))

end Scan

/-- Behind a marker line a text has the tokens it has at the start of a stream. -/
theorem tokens?_after_marker {marker : Marker} (hmarker : marker ≠ .streamStart)
    (text : List Char) :
    tokens? ⟨marker, '\n' :: text⟩ = tokens? ⟨.streamStart, text⟩ := by
  have hmarked : (marker != .streamStart) = true := by simpa using hmarker
  let start : Scan := ⟨⟨text, 0, 0, 0⟩, #[], [], none, [], true⟩
  have hagree : Scan.Agree 1 1 text.length (start.toToken (text.length + 1))
      ((start.moved 1 1).toToken (text.length + 1)) :=
    Scan.toToken_moved (s := start) (Nat.le_refl text.length) (Nat.le_refl text.length)
  refine Eq.symm ?_
  unfold tokens?
  rw [hmarked]
  exact Scan.finish?_of_toToken hagree (Nat.lt_succ_self _)
    (Nat.lt_of_lt_of_le (Nat.lt_succ_self _) (Nat.le_succ _)) (Nat.le_refl _) (Nat.le_succ _)

end WorkflowRecipes.Yaml
