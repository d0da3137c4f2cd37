import WorkflowRecipes.Amendment.Action
import WorkflowRecipes.Proofs.Yaml.QuotedEntries
import WorkflowRecipes.Proofs.Yaml.Streams

/-!
# The payload of a message

The payload of a migrated step is a text of its own, with the channel and the text of the message in
quotes. It is read back as a mapping of these two unless a character is left unescaped that a stream
may not hold or that folds.

Results:
1. `tokens?_payload`, `documents?_payload`: what is read of a payload that is not cut.
2. `documents?_payload_eq_none`: nothing is read of one that is cut, or has such a character.
3. `payload_readsBack_iff`: the messages that are read back.
-/

namespace WorkflowRecipes

namespace Yaml

/-- A string in quotes is read as a scalar with the same text: what is not escaped may stand in a
stream, cuts no line, and does not fold. -/
structure ReadsBack (text : String) : Prop where
  allowed : ∀ c ∈ text.toList, c.toNat < 0x20 ∨ isAllowed c = true
  unmarked : hasMarker false text.toList = false
  noNextLine : '\u0085' ∉ text.toList
  alike : text.toList.IsChain FoldAlike

theorem mem_jsonChar_self {c : Char} (h : 0x20 ≤ c.toNat) : c ∈ Text.jsonChar c := by
  unfold Text.jsonChar
  split
  · decide
  · decide
  iterate 5 exact absurd h (by decide)
  rw [if_neg (Nat.not_lt.mpr h)]
  exact List.mem_singleton_self c

/-- A stream may hold what is written for a text if it may hold what is not escaped. -/
theorem isAllowed_flatMap_iff {text : List Char} :
    (∀ d ∈ text.flatMap Text.jsonChar, isAllowed d = true) ↔
      ∀ c ∈ text, c.toNat < 0x20 ∨ isAllowed c = true := by
  constructor
  · intro h c hc
    refine (Nat.lt_or_ge c.toNat 0x20).imp_right fun hlarge => h c ?_
    exact List.mem_flatMap.mpr ⟨c, hc, mem_jsonChar_self hlarge⟩
  · intro h d hd
    obtain ⟨c, hc, hd⟩ := List.mem_flatMap.mp hd
    rcases mem_jsonChar hd with ⟨rfl, hlarge⟩ | hescape
    · exact (h d hc).resolve_left (Nat.not_lt.mpr hlarge)
    · exact List.all_eq_true.mp (by decide : escapeChars.all isAllowed = true) d hescape

end Yaml

namespace Slack

open Yaml

variable {message : Message}

/-! ## The text -/

def channelKey : List Char := "channel".toList

def textKey : List Char := "text".toList

theorem isAlpha_channelKey : ∀ c ∈ channelKey, c.isAlpha = true :=
  List.all_eq_true.mp (by decide)

theorem isAlpha_textKey : ∀ c ∈ textKey, c.isAlpha = true :=
  List.all_eq_true.mp (by decide)

/-- A payload behind the channel. -/
def payloadEnd (text : List Char) : List Char :=
  '\n' :: (textKey ++ ':' :: ' ' :: '"' :: (text.flatMap Text.jsonChar ++ '"' :: ['\n']))

theorem toList_payload (message : Message) :
    (payload message).toList = channelKey ++ ':' :: ' ' :: '"' ::
      (message.channel.toList.flatMap Text.jsonChar ++ '"' :: payloadEnd message.text.toList) := by
  simp only [payload, jsonQuoted, payloadEnd, String.toList_append, String.toList_ofList,
    List.append_assoc, List.cons_append, List.nil_append]
  rfl

theorem isAllowed_payload_iff :
    (∀ c ∈ (payload message).toList, isAllowed c = true) ↔
      (∀ c ∈ message.channel.toList, c.toNat < 0x20 ∨ isAllowed c = true) ∧
        ∀ c ∈ message.text.toList, c.toNat < 0x20 ∨ isAllowed c = true := by
  have hchannel : ∀ c ∈ channelKey ++ [':', ' ', '"'], isAllowed c = true :=
    List.all_eq_true.mp (by decide)
  have htext : ∀ c ∈ '"' :: '\n' :: textKey ++ [':', ' ', '"'], isAllowed c = true :=
    List.all_eq_true.mp (by decide)
  have hend : ∀ c ∈ ['"', '\n'], isAllowed c = true := List.all_eq_true.mp (by decide)
  have hparts : (payload message).toList = channelKey ++ [':', ' ', '"'] ++
      message.channel.toList.flatMap Text.jsonChar ++ ('"' :: '\n' :: textKey ++ [':', ' ', '"']) ++
        message.text.toList.flatMap Text.jsonChar ++ ['"', '\n'] := by
    rw [toList_payload]
    simp [payloadEnd]
  rw [hparts, ← isAllowed_flatMap_iff, ← isAllowed_flatMap_iff, List.forall_mem_append,
    List.forall_mem_append, List.forall_mem_append, List.forall_mem_append]
  exact ⟨fun h => ⟨h.1.1.1.2, h.1.2⟩, fun h => ⟨⟨⟨⟨hchannel, h.1⟩, htext⟩, h.2⟩, hend⟩⟩

/-! ## Marker lines -/

theorem untilMarker_channelKey (rest : List Char) :
    untilMarker true (channelKey ++ ':' :: ' ' :: '"' :: rest) =
      channelKey ++ ':' :: ' ' :: '"' :: untilMarker false rest :=
  rfl

theorem untilMarker_textKey (rest : List Char) :
    untilMarker false ('\n' :: (textKey ++ ':' :: ' ' :: '"' :: rest)) =
      '\n' :: (textKey ++ ':' :: ' ' :: '"' :: untilMarker false rest) :=
  rfl

theorem segments_payload (hchannel : hasMarker false message.channel.toList = false)
    (htext : hasMarker false message.text.toList = false) :
    segments (payload message).toList = [⟨.streamStart, (payload message).toList⟩] := by
  refine segments_eq_singleton ?_
  rw [toList_payload, untilMarker_channelKey, untilMarker_closed hchannel, payloadEnd,
    untilMarker_textKey, untilMarker_closed htext]
  rfl

/-! ## Tokens -/

def payloadTokens (channel text : List Char) : List Token :=
  .blockMappingStart :: (Scan.entryTokens channelKey channel ++ Scan.entryTokens textKey text ++
    [.blockEnd])

theorem tokens?_of_channelKey (rest : List Char) :
    tokens? ⟨.streamStart, channelKey ++ ':' :: ' ' :: '"' :: rest⟩ =
      Scan.finish? (rest.length + 10) (rest.length + 8 + 3)
        (Scan.atKey (channelKey ++ ':' :: ' ' :: '"' :: rest) 0 0 [] []) :=
  rfl

theorem toToken_channelKey (size : Nat) (rest : List Char) :
    (Scan.atKey (channelKey ++ ':' :: ' ' :: '"' :: rest) 0 0 [] []).toToken (size + 1) =
      Scan.atKey (channelKey ++ ':' :: ' ' :: '"' :: rest) 0 0 [] [] :=
  Scan.toToken_eq_self rfl (by decide) size

/-- The channel of a payload is read, and what follows is read on the next line. -/
theorem exists_tokens?_channel (channel behind : List Char) :
    ∃ (size n index line : Nat) (s : Scan), channel.length + behind.length ≤ size ∧
      s.toToken (size + 1) = Scan.atKey (textKey ++ behind) index line
        (.blockMappingStart :: Scan.entryTokens channelKey (readBack channel)) [0] ∧
      tokens? ⟨.streamStart, channelKey ++ ':' :: ' ' :: '"' ::
        (channel.flatMap Text.jsonChar ++ '"' :: '\n' :: (textKey ++ behind))⟩ =
          Scan.finish? size (n + 4) s := by
  have hchannel := Json.length_le_flatMap channel
  let rest := channel.flatMap Text.jsonChar ++ '"' :: '\n' :: (textKey ++ behind)
  have hrest : channel.length + behind.length + 6 ≤ rest.length := by
    simp only [rest, List.length_append, List.length_cons]
    show _ ≤ _ + (4 + behind.length + 1 + 1)
    omega
  obtain ⟨cursor, hcursor, hread⟩ := Scan.finish?_closed (List.cons_ne_nil _ _) isAlpha_channelKey
    (by decide) (by omega) (.inl rfl) (toToken_channelKey (rest.length + 10) rest) (rest.length + 8)
  have hline := Scan.toToken_afterKey (Nat.succ_pos (rest.length + 9)) hcursor rfl
    (Token.blockMappingStart :: Scan.entryTokens channelKey (readBack channel))
  exact ⟨rest.length + 10, rest.length + 4, _, _, _, by omega, hline,
    (tokens?_of_channelKey rest).trans hread⟩

theorem tokens?_payload (channel text : List Char) :
    tokens? ⟨.streamStart, channelKey ++ ':' :: ' ' :: '"' ::
      (channel.flatMap Text.jsonChar ++ '"' :: payloadEnd text)⟩ =
        some (payloadTokens (readBack channel) (readBack text)) := by
  have htext := Json.length_le_flatMap text
  obtain ⟨size, n, index, line, s, hsize, hs, htokens⟩ := exists_tokens?_channel channel
    (':' :: ' ' :: '"' :: (text.flatMap Text.jsonChar ++ '"' :: ['\n']))
  simp only [List.length_cons, List.length_append] at hsize
  obtain ⟨cursor, hcursor, hread⟩ := Scan.finish?_closed (List.cons_ne_nil _ _) isAlpha_textKey
    (by decide) (by omega) (.inr rfl) hs (n + 1)
  rw [payloadEnd, htokens, hread, Scan.finish?_end (by omega) hcursor]
  rfl

/-- Nothing is read of a channel that is cut. -/
theorem tokens?_channel_cut (before : List Char) :
    tokens? ⟨.streamStart, channelKey ++ ':' :: ' ' :: '"' :: before.flatMap Text.jsonChar⟩ =
      none := by
  have hbefore := Json.length_le_flatMap before
  rw [tokens?_of_channelKey]
  exact Scan.finish?_open (List.cons_ne_nil _ _) isAlpha_channelKey (by decide) (by omega)
    (.inl rfl) (toToken_channelKey _ _) _

/-- Nothing is read of a text that is cut. -/
theorem tokens?_text_cut (channel before : List Char) :
    tokens? ⟨.streamStart, channelKey ++ ':' :: ' ' :: '"' ::
      (channel.flatMap Text.jsonChar ++ '"' :: '\n' ::
        (textKey ++ ':' :: ' ' :: '"' :: before.flatMap Text.jsonChar))⟩ = none := by
  have hbefore := Json.length_le_flatMap before
  obtain ⟨size, n, index, line, s, hsize, hs, htokens⟩ := exists_tokens?_channel channel
    (':' :: ' ' :: '"' :: before.flatMap Text.jsonChar)
  simp only [List.length_cons] at hsize
  rw [htokens]
  exact Scan.finish?_open (List.cons_ne_nil _ _) isAlpha_textKey (by decide) (by omega) (.inr rfl)
    hs _

/-! ## Documents -/

/-- The mapping of a channel and a text. -/
def content (channel text : String) : Value :=
  .mapping [(.string "channel", .string channel), (.string "text", .string text)]

def payloadNode (channel text : List Char) : NamedNode :=
  .mapping {} [(.scalar {} channelKey .plain, .scalar {} channel .quoted),
    (.scalar {} textKey .plain, .scalar {} text .quoted)]

theorem documentNodes?_payloadTokens (channel text : List Char) :
    documentNodes? [] [(.streamStart, payloadTokens channel text)] =
      some [payloadNode channel text] :=
  rfl

theorem nodeValue?_payloadNode (channel text : List Char) :
    nodeValue? (payloadNode channel text) =
      some (content (String.ofList channel) (String.ofList text)) :=
  rfl

/-- What is read of a payload without marker lines that a stream may hold. -/
theorem documents?_payload (hallowed : ∀ c ∈ (payload message).toList, isAllowed c = true)
    (hchannel : hasMarker false message.channel.toList = false)
    (htext : hasMarker false message.text.toList = false) :
    documents? (payload message) =
      some [content (String.ofList (readBack message.channel.toList))
        (String.ofList (readBack message.text.toList))] := by
  have hnodes : nodes? (payload message).toList = some
      [payloadNode (readBack message.channel.toList) (readBack message.text.toList)] := by
    refine nodes?_eq_some_iff.mpr ⟨hallowed, _, ?_, documentNodes?_payloadTokens _ _⟩
    rw [segments_payload hchannel htext, toList_payload, List.mapM_cons, Segment.cut?,
      tokens?_payload]
    rfl
  rw [documents?_of_nodes (List.cons_ne_nil _ _) hnodes, List.mapM_cons, nodeValue?_payloadNode]
  rfl

theorem documents?_eq_none_of_nodes? {text : String} (h : nodes? text.toList = none) :
    documents? text = none := by
  rw [documents?, trees?, h, Option.bind_none, Option.bind_none]

/-- A stream whose first segment has no tokens has no documents. -/
theorem documents?_eq_none_of_tokens? {text : String}
    (h : tokens? ⟨.streamStart, untilMarker true text.toList⟩ = none) :
    documents? text = none := by
  refine documents?_eq_none_of_nodes? (Option.eq_none_iff_forall_ne_some.mpr fun nodes hnodes => ?_)
  obtain ⟨-, cut, hcut, -⟩ := nodes?_eq_some_iff.mp hnodes
  have hsegments : segments text.toList = ⟨.streamStart, untilMarker true text.toList⟩ ::
      (Segment.group (linesWithBreaks text.toList)).2 := by
    rw [← (group_linesWithBreaks text.toList).1]
    rfl
  rw [hsegments, List.mapM_cons, Segment.cut?, h] at hcut
  cases hcut

/-- Nothing is read of a payload with a marker line between quotes. -/
theorem documents?_eq_none_of_hasMarker
    (h : hasMarker false message.channel.toList = true ∨ hasMarker false message.text.toList = true) :
    documents? (payload message) = none := by
  refine documents?_eq_none_of_tokens? ?_
  rw [toList_payload, untilMarker_channelKey]
  cases hchannel : hasMarker false message.channel.toList with
  | true =>
    obtain ⟨before, -, hcut⟩ := untilMarker_open hchannel (payloadEnd message.text.toList)
    rw [hcut, tokens?_channel_cut]
  | false =>
    have htext := h.resolve_left (by rw [hchannel]; exact Bool.false_ne_true)
    obtain ⟨before, -, hcut⟩ := untilMarker_open htext ['\n']
    rw [untilMarker_closed hchannel, payloadEnd, untilMarker_textKey, hcut, tokens?_text_cut]

/-- Nothing is read of a payload with a character that a stream may not hold. -/
theorem documents?_eq_none_of_not_allowed
    (h : ¬ ∀ c ∈ (payload message).toList, isAllowed c = true) :
    documents? (payload message) = none :=
  documents?_eq_none_of_nodes? (Option.eq_none_iff_forall_ne_some.mpr fun _ hnodes =>
    h (nodes?_eq_some_iff.mp hnodes).1)

theorem readBack_toList_iff {text : String} : String.ofList (readBack text.toList) = text ↔
    '\u0085' ∉ text.toList ∧ text.toList.IsChain FoldAlike := by
  rw [← readBack_eq_self_iff]
  constructor
  · intro h
    rw [← String.toList_ofList (l := readBack text.toList), h]
  · intro h
    rw [h, String.ofList_toList]

theorem content_inj {channel channel' text text' : String} :
    content channel text = content channel' text' ↔ channel = channel' ∧ text = text' := by
  simp [content]

/-- A payload is read as the channel and the text of the message if and only if each of the two is
read back as it is. -/
theorem payload_readsBack_iff (message : Message) :
    documents? (payload message) = some [content message.channel message.text] ↔
      ReadsBack message.channel ∧ ReadsBack message.text := by
  constructor
  · intro h
    have hallowed : ∀ c ∈ (payload message).toList, isAllowed c = true := by
      by_contra hnot
      rw [documents?_eq_none_of_not_allowed hnot] at h
      cases h
    have hmarker : ¬ (hasMarker false message.channel.toList = true ∨
        hasMarker false message.text.toList = true) := by
      intro hcut
      rw [documents?_eq_none_of_hasMarker hcut] at h
      cases h
    rw [not_or, Bool.not_eq_true, Bool.not_eq_true] at hmarker
    obtain ⟨hchannel, htext⟩ := isAllowed_payload_iff.mp hallowed
    rw [documents?_payload hallowed hmarker.1 hmarker.2, Option.some.injEq, List.cons.injEq,
      and_iff_left rfl, content_inj, readBack_toList_iff, readBack_toList_iff] at h
    exact ⟨⟨hchannel, hmarker.1, h.1.1, h.1.2⟩, ⟨htext, hmarker.2, h.2.1, h.2.2⟩⟩
  · rintro ⟨hchannel, htext⟩
    rw [documents?_payload (isAllowed_payload_iff.mpr ⟨hchannel.allowed, htext.allowed⟩)
      hchannel.unmarked htext.unmarked,
      readBack_toList_iff.mpr ⟨hchannel.noNextLine, hchannel.alike⟩,
      readBack_toList_iff.mpr ⟨htext.noNextLine, htext.alike⟩]

/-- A delete character is not escaped in a payload, and no stream may hold one. -/
theorem documents?_payload_delete : documents? (payload ⟨"", "a\x7f", "b"⟩) = none := by
  refine documents?_eq_none_of_not_allowed fun h => ?_
  exact absurd (h '\x7f' (by decide)) (by decide)

end Slack

end WorkflowRecipes
