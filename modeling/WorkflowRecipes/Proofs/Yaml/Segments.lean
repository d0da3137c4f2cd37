import WorkflowRecipes.Yaml.Node
import WorkflowRecipes.Proofs.Yaml.MovedTokens

/-!
# Streams that are put together

Two texts with a bare `---` line between them are read one after the other, provided that the first
is at the end of a line and that the second opens with a token of a document.

Results:
1. `segments_separated`: the segments of the second text stand behind those of the first, its first
   one under the separator.
2. `documentNodes?_append`: what is read from the first segments stays read.
3. `nodes?_separated`: the documents of both texts, in order.
-/

namespace WorkflowRecipes.Yaml

/-- The line between two documents. -/
def separator : List Char := "---\n".toList

/-- Whether a text is empty or ends with a break. -/
def IsClosed (text : List Char) : Prop := ∀ c, text.getLast? = some c → isBreak c = true

/-! ## Lines and segments -/

theorem linesWithBreaks_ne_nil {c : Char} {s : List Char} : linesWithBreaks (c :: s) ≠ [] := by
  rw [linesWithBreaks]
  split
  · exact List.cons_ne_nil _ _
  · split <;> exact List.cons_ne_nil _ _

theorem linesWithBreaks_append {a : List Char} (ha : IsClosed a) (b : List Char) :
    linesWithBreaks (a ++ b) = linesWithBreaks a ++ linesWithBreaks b := by
  induction a with
  | nil => rfl
  | cons c s ih =>
    cases s with
    | nil =>
      have hc : isBreak c = true := ha c rfl
      simp [linesWithBreaks, hc]
    | cons d s =>
      have hrest := ih fun e he => ha e (by simpa using he)
      rw [List.cons_append, linesWithBreaks, hrest, linesWithBreaks.eq_def (c :: d :: s)]
      dsimp only
      split
      · rfl
      · cases hlines : linesWithBreaks (d :: s) with
        | nil => exact absurd hlines linesWithBreaks_ne_nil
        | cons line rest => rfl

theorem group_append {a b : List (List Char)} (hb : (Segment.group b).1 = []) :
    Segment.group (a ++ b) =
      ((Segment.group a).1, (Segment.group a).2 ++ (Segment.group b).2) := by
  induction a with
  | nil => simp [Segment.group, ← hb]
  | cons line a ih =>
    rw [List.cons_append, Segment.group, ih, Segment.group]
    cases Marker.ofLine? line <;> rfl

theorem group_separator (b : List Char) :
    Segment.group (linesWithBreaks (separator ++ b)) =
      ([], ⟨.documentStart, '\n' :: (Segment.group (linesWithBreaks b)).1⟩ ::
        (Segment.group (linesWithBreaks b)).2) := by
  rfl

/-- A text without a marker, and what stands behind its markers. -/
theorem segments_separated {a : List Char} (ha : IsClosed a) {b first : List Char}
    {rest : List Segment} (hb : segments b = ⟨.streamStart, first⟩ :: rest) :
    segments (a ++ separator ++ b) =
      segments a ++ ⟨.documentStart, '\n' :: first⟩ :: rest := by
  obtain ⟨hfirst, hrest⟩ := List.cons.inj hb
  have hfirst : (Segment.group (linesWithBreaks b)).1 = first := congrArg Segment.text hfirst
  have hseparator := group_separator b
  rw [hfirst, hrest] at hseparator
  unfold segments
  rw [List.append_assoc, linesWithBreaks_append ha, group_append (by rw [hseparator]), hseparator]
  rfl

theorem linesWithBreaks_cons (c : Char) (s : List Char) :
    ∃ line more, linesWithBreaks (c :: s) = (c :: line) :: more ∧ (c :: line) <+: (c :: s) := by
  induction s generalizing c with
  | nil =>
    refine ⟨[], [], ?_, List.prefix_rfl⟩
    unfold linesWithBreaks
    split <;> rfl
  | cons d s ih =>
    obtain ⟨line, more, hlines, hprefix⟩ := ih d
    rw [linesWithBreaks]
    split
    · exact ⟨[], _, rfl, by simp⟩
    · exact ⟨d :: line, more, by rw [hlines], by simpa using hprefix⟩

/-- A text that does not start with a marker has its start in the first segment. -/
theorem segments_of_start {c : Char} {s : List Char} (hstart : ¬ ['-', '-', '-'] <+: c :: s)
    (hend : ¬ ['.', '.', '.'] <+: c :: s) :
    ∃ first rest, segments (c :: s) = ⟨.streamStart, c :: first⟩ :: rest := by
  obtain ⟨line, more, hlines, hprefix⟩ := linesWithBreaks_cons c s
  have hmarker : Marker.ofLine? (c :: line) = none := by
    unfold Marker.ofLine?
    split
    · next rest heq =>
      rw [heq] at hprefix
      exact absurd ((List.prefix_append ['-', '-', '-'] rest).trans hprefix) hstart
    · next rest heq =>
      rw [heq] at hprefix
      exact absurd ((List.prefix_append ['.', '.', '.'] rest).trans hprefix) hend
    · rfl
  refine ⟨line ++ (Segment.group more).1, (Segment.group more).2, ?_⟩
  rw [segments, hlines, Segment.group, hmarker]
  rfl

/-! ## Documents -/

/-- A document that is read whole: only directives for the next one come after it. -/
def wholeNode? (handles : Node.Handles) (tokens : List Token) :
    Option (List NamedNode × List Token) :=
  (Node.ofTokens? handles tokens).bind fun (node, rest) =>
    if rest.all Token.isDirective then some ([node], rest) else none

/-- The document of one segment, if it has one, and the tokens that then wait for the next. `ended`
tells that the next segment stands behind the mark of an end. -/
def segmentNode? (pending : List Token) (ended : Bool) (tokens : List Token) :
    Marker → Option (List NamedNode × List Token)
  | .streamStart =>
    if tokens.isEmpty && ended then none
    else if tokens.all Token.isDirective then some ([], tokens)
    else if tokens.head?.any Token.isDirective then none
    else wholeNode? Node.defaultHandles tokens
  | .documentStart =>
    (handles? pending).bind fun handles =>
      if tokens.isEmpty || tokens.head?.any Token.isDirective then
        if tokens.all Token.isDirective then some ([Node.empty], tokens) else none
      else wholeNode? handles tokens
  | .documentEnd =>
    if pending.isEmpty && tokens.all Token.isDirective then some ([], tokens) else none

theorem bind_wholeNode? (handles : Node.Handles) (tokens : List Token)
    (more : List (Marker × List Token)) :
    ((wholeNode? handles tokens).bind fun (new, rest) =>
        (documentNodes? rest more).map (new ++ ·)) =
      (Node.ofTokens? handles tokens).bind fun (node, rest) =>
        if rest.all Token.isDirective then (documentNodes? rest more).map (node :: ·) else none := by
  unfold wholeNode?
  cases Node.ofTokens? handles tokens with
  | none => rfl
  | some read =>
    dsimp only [Option.bind_some]
    split <;> rfl

/-- The documents of a stream are those of its segments, one after the other. -/
theorem documentNodes?_cons (pending : List Token) (marker : Marker) (tokens : List Token)
    (more : List (Marker × List Token)) :
    documentNodes? pending ((marker, tokens) :: more) =
      (segmentNode? pending (more.head?.any fun s => s.1 == .documentEnd) tokens marker).bind
        fun (new, rest) => (documentNodes? rest more).map (new ++ ·) := by
  have hnone : documentNodes? tokens more = (documentNodes? tokens more).map ([] ++ ·) :=
    Option.map_id'.symm
  cases marker with
  | streamStart =>
    rw [documentNodes?, segmentNode?]
    dsimp only
    split
    · rfl
    split
    · exact hnone
    split
    · rfl
    · exact (bind_wholeNode? _ _ _).symm
  | documentStart =>
    rw [documentNodes?, segmentNode?]
    cases handles? pending with
    | none => rfl
    | some handles =>
      simp only [Option.bind_some]
      split
      · split <;> rfl
      · exact (bind_wholeNode? _ _ _).symm
  | documentEnd =>
    rw [documentNodes?, segmentNode?]
    split
    · exact hnone
    · rfl

/-- What is read so far stays read, and the next document starts with nothing pending. -/
theorem documentNodes?_append {before : List (Marker × List Token)} {pending : List Token}
    {nodes : List NamedNode} (h : documentNodes? pending before = some nodes)
    (tokens : List Token) (more : List (Marker × List Token)) :
    documentNodes? pending (before ++ (.documentStart, tokens) :: more) =
      (documentNodes? [] ((.documentStart, tokens) :: more)).map (nodes ++ ·) := by
  induction before generalizing pending nodes with
  | nil =>
    rw [documentNodes?] at h
    split at h
    · next hempty =>
      cases h
      rw [List.isEmpty_iff.mp hempty, List.nil_append]
      exact Option.map_id'.symm
    · cases h
  | cons segment before ih =>
    obtain ⟨marker, here⟩ := segment
    rw [documentNodes?_cons] at h
    obtain ⟨⟨new, rest⟩, hnode, h⟩ := Option.bind_eq_some_iff.mp h
    obtain ⟨others, hothers, rfl⟩ := Option.map_eq_some_iff.mp h
    -- The segment that comes next stands behind the mark of an end in both streams, or in neither.
    have hended : ((before ++ (.documentStart, tokens) :: more).head?.any
        fun s => s.1 == .documentEnd) = before.head?.any fun s => s.1 == .documentEnd := by
      cases before <;> rfl
    rw [List.cons_append, documentNodes?_cons, hended, hnode, Option.bind_some]
    dsimp only
    rw [ih hothers, Option.map_map]
    refine congrArg (Option.map · _) (funext fun after => ?_)
    exact (List.append_assoc new others after).symm

/-- Under a separator the first segment of a stream reads as it does without one, provided that a
token of a document opens it. -/
theorem documentNodes?_of_streamStart {token : Token} {tokens : List Token}
    {more : List (Marker × List Token)} (htoken : token.isDirective = false) :
    documentNodes? [] ((.documentStart, token :: tokens) :: more) =
      documentNodes? [] ((.streamStart, token :: tokens) :: more) := by
  rw [documentNodes?, documentNodes?]
  simp [htoken, handles?]

/-- The marker of a segment with the segment's tokens. -/
def Segment.cut? (segment : Segment) : Option (Marker × List Token) :=
  (tokens? segment).map fun tokens => (segment.marker, tokens)

theorem nodes?_eq_some_iff {stream : List Char} {nodes : List NamedNode} :
    nodes? stream = some nodes ↔
      (∀ c ∈ stream, isAllowed c = true) ∧
        ∃ cut, (segments stream).mapM Segment.cut? = some cut ∧
          documentNodes? [] cut = some nodes := by
  unfold nodes?
  rw [← List.all_eq_true]
  split
  · next hall =>
    rw [Option.bind_eq_some_iff]
    exact ⟨fun h => ⟨hall, h⟩, fun h => h.2⟩
  · next hall => exact ⟨nofun, fun h => absurd h.1 hall⟩

/-- A text opens with a token of a document: no marker line stands first, and the tokens before the
first marker start with one that is no directive. -/
def OpensDocument (text : List Char) : Prop :=
  ∃ first rest, segments text = ⟨.streamStart, first⟩ :: rest ∧
    ∀ tokens, tokens? ⟨.streamStart, first⟩ = some tokens →
      ∃ token more, tokens = token :: more ∧ token.isDirective = false

/-- Two texts with a separator between them have the documents of both, in order. -/
theorem nodes?_separated {a b : List Char} {before after : List NamedNode} (ha : IsClosed a)
    (hb : OpensDocument b) (hbefore : nodes? a = some before) (hafter : nodes? b = some after) :
    nodes? (a ++ separator ++ b) = some (before ++ after) := by
  obtain ⟨hallA, cutA, hcutA, hnodesA⟩ := nodes?_eq_some_iff.mp hbefore
  obtain ⟨hallB, cutB, hcutB, hnodesB⟩ := nodes?_eq_some_iff.mp hafter
  obtain ⟨first, rest, hsegments, hopens⟩ := hb
  have hseparator : ∀ c ∈ separator, isAllowed c = true := List.all_eq_true.mp rfl
  rw [hsegments, List.mapM_cons] at hcutB
  obtain ⟨_, hfirst, hcutB⟩ := Option.bind_eq_some_iff.mp hcutB
  obtain ⟨restCut, hrest, hcutB⟩ := Option.bind_eq_some_iff.mp hcutB
  obtain ⟨tokens, htokens, rfl⟩ := Option.map_eq_some_iff.mp hfirst
  cases hcutB
  obtain ⟨token, more, rfl, hdirective⟩ := hopens tokens htokens
  have hmarked : Segment.cut? ⟨.documentStart, '\n' :: first⟩ =
      some (.documentStart, token :: more) := by
    rw [Segment.cut?, tokens?_after_marker (by decide), htokens]
    rfl
  refine nodes?_eq_some_iff.mpr ⟨?_, cutA ++ (.documentStart, token :: more) :: restCut, ?_, ?_⟩
  · intro c hc
    rw [List.mem_append, List.mem_append] at hc
    rcases hc with (hc | hc) | hc
    · exact hallA c hc
    · exact hseparator c hc
    · exact hallB c hc
  · rw [segments_separated ha hsegments, List.mapM_append, hcutA, List.mapM_cons, hmarked, hrest]
    rfl
  · rw [documentNodes?_append hnodesA, documentNodes?_of_streamStart hdirective, hnodesB]
    rfl

end WorkflowRecipes.Yaml
