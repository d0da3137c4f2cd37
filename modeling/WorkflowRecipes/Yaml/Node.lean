import WorkflowRecipes.Yaml.Token

/-!
# Nodes

`Node.ofTokens?` reads the tokens of one document into a tree whose scalars are still text and whose
aliases are names. `nodes?` reads a whole stream.

The fuel of the mutual readers bounds their nested calls; twice the number of tokens is enough.
-/

namespace WorkflowRecipes.Yaml

/-- What may stand before a node: a name for it, and its tag. -/
structure Properties where
  anchor : Option (List Char) := none
  tag : Option (List Char) := none
  deriving Repr, DecidableEq, Inhabited

/-- A document before its scalars are given a meaning. An alias refers to another node by an `ref`:
a name at first, then a number; in a `Node Empty` every alias is replaced by what it refers to. -/
inductive Node (ref : Type) where
  | alias (target : ref)
  | scalar (properties : Properties) (text : List Char) (style : Style)
  | sequence (properties : Properties) (items : List (Node ref))
  | mapping (properties : Properties) (entries : List (Node ref × Node ref))
  deriving Repr, Inhabited

/-- A node as it is written, with aliases by name. -/
abbrev NamedNode := Node (List Char)

/-- A node without aliases. -/
abbrev Tree := Node Empty

namespace Node

/-- The node that stands where nothing is written. -/
def empty {ref : Type} : Node ref := .scalar {} [] .plain

/-- Tag handles with the texts they stand for. -/
abbrev Handles := List (List Char × List Char)

/-- The handles that every document has. -/
def defaultHandles : Handles :=
  [(['!'], ['!']), (['!', '!'], "tag:yaml.org,2002:".toList)]

/-- The full text of a tag. -/
def fullTag? (handles : Handles) (handle suffix : List Char) : Option (List Char) :=
  if handle.isEmpty then some suffix
  else (handles.find? fun h => h.1 == handle).map fun h => h.2 ++ suffix

/-- An anchor and a tag, in either order, each at most once. -/
def properties? (handles : Handles) : List Token → Option (Properties × List Token)
  | .anchor name :: .tag handle suffix :: rest =>
    (fullTag? handles handle suffix).map fun tag => (⟨some name, some tag⟩, rest)
  | .anchor name :: rest => some (⟨some name, none⟩, rest)
  | .tag handle suffix :: .anchor name :: rest =>
    (fullTag? handles handle suffix).map fun tag => (⟨some name, some tag⟩, rest)
  | .tag handle suffix :: rest =>
    (fullTag? handles handle suffix).map fun tag => (⟨none, some tag⟩, rest)
  | rest => some ({}, rest)

/-- A scalar node; the tag `!` says nothing about a scalar. -/
def ofScalar (properties : Properties) (text : List Char) (style : Style) : NamedNode :=
  let tag := if properties.tag == some ['!'] then none else properties.tag
  .scalar { properties with tag := tag } text style

/-- Whether the next token is one of `stops`. -/
def atAny (stops : List Token) (tokens : List Token) : Bool :=
  match tokens with
  | [] => false
  | token :: _ => stops.contains token

mutual

/-- A node. `block` admits block collections; `indentless` admits a block sequence that does not
stand further right than the mapping around it. -/
def node? (handles : Handles) : Nat → Bool → Bool → List Token → Option (NamedNode × List Token)
  | 0, _, _, _ => none
  | n + 1, block, indentless, tokens =>
    match tokens with
    | .alias name :: rest => some (.alias name, rest)
    | _ =>
      (properties? handles tokens).bind fun (properties, tokens) =>
        match tokens with
        | .scalar text style :: rest => some (ofScalar properties text style, rest)
        | .flowSequenceStart :: rest =>
          (flowItems? handles n true rest).map fun (items, rest) =>
            (.sequence properties items, rest)
        | .flowMappingStart :: rest =>
          (flowEntries? handles n true rest).map fun (entries, rest) =>
            (.mapping properties entries, rest)
        | other =>
          if indentless && atAny [.blockEntry] other then
            (indentlessItems? handles n other).map fun (items, rest) =>
              (.sequence properties items, rest)
          else
            match block, other with
            | true, .blockSequenceStart :: rest =>
              (blockItems? handles n rest).map fun (items, rest) =>
                (.sequence properties items, rest)
            | true, .blockMappingStart :: rest =>
              (blockEntries? handles n rest).map fun (entries, rest) =>
                (.mapping properties entries, rest)
            | _, other =>
              if properties.anchor.isSome || properties.tag.isSome then
                some (.scalar properties [] .plain, other)
              else none

/-- A block node, or nothing written where one of `stops` follows. -/
def blockNodeOr? (handles : Handles) :
    Nat → Bool → List Token → List Token → Option (NamedNode × List Token)
  | 0, _, _, _ => none
  | n + 1, indentless, stops, tokens =>
    if atAny stops tokens then some (empty, tokens) else node? handles n true indentless tokens

/-- A node in a flow collection, or nothing written where one of `stops` follows. -/
def flowNodeOr? (handles : Handles) :
    Nat → List Token → List Token → Option (NamedNode × List Token)
  | 0, _, _ => none
  | n + 1, stops, tokens =>
    if atAny stops tokens then some (empty, tokens) else node? handles n false false tokens

/-- The items of a block sequence up to the end of its block. -/
def blockItems? (handles : Handles) : Nat → List Token → Option (List NamedNode × List Token)
  | 0, _ => none
  | n + 1, tokens =>
    match tokens with
    | .blockEntry :: rest =>
      (blockNodeOr? handles n false [.blockEntry, .blockEnd] rest).bind fun (item, rest) =>
        (blockItems? handles n rest).map fun (items, rest) => (item :: items, rest)
    | .blockEnd :: rest => some ([], rest)
    | _ => none

/-- The items of a block sequence that ends where no further item follows. -/
def indentlessItems? (handles : Handles) : Nat → List Token → Option (List NamedNode × List Token)
  | 0, _ => none
  | n + 1, tokens =>
    match tokens with
    | .blockEntry :: rest =>
      (blockNodeOr? handles n false [.blockEntry, .key, .value, .blockEnd] rest).bind
        fun (item, rest) =>
          (indentlessItems? handles n rest).map fun (items, rest) => (item :: items, rest)
    | rest => some ([], rest)

/-- The entries of a block mapping up to the end of its block. -/
def blockEntries? (handles : Handles) :
    Nat → List Token → Option (List (NamedNode × NamedNode) × List Token)
  | 0, _ => none
  | n + 1, tokens =>
    match tokens with
    | .key :: rest =>
      (blockNodeOr? handles n true [.key, .value, .blockEnd] rest).bind fun (key, rest) =>
        (blockValue? handles n rest).bind fun (value, rest) =>
          (blockEntries? handles n rest).map fun (entries, rest) => ((key, value) :: entries, rest)
    | .blockEnd :: rest => some ([], rest)
    | _ => none

/-- The value after a key of a block mapping. -/
def blockValue? (handles : Handles) : Nat → List Token → Option (NamedNode × List Token)
  | 0, _ => none
  | n + 1, tokens =>
    match tokens with
    | .value :: rest => blockNodeOr? handles n true [.key, .value, .blockEnd] rest
    | rest => some (empty, rest)

/-- The items of a flow sequence up to its bracket. An item with a key is a mapping of one entry;
where its key is not written, the token in its place is passed over. -/
def flowItems? (handles : Handles) : Nat → Bool → List Token → Option (List NamedNode × List Token)
  | 0, _, _ => none
  | n + 1, first, tokens =>
    match tokens with
    | .flowSequenceEnd :: rest => some ([], rest)
    | _ =>
      let separated := match first, tokens with
        | true, _ => some tokens
        | false, .flowEntry :: rest => some rest
        | false, _ => none
      separated.bind fun tokens =>
        match tokens with
        | .flowSequenceEnd :: rest => some ([], rest)
        | .key :: rest =>
          let key :=
            if atAny [.value, .flowEntry, .flowSequenceEnd] rest then some (empty, rest.tail)
            else node? handles n false false rest
          key.bind fun (key, rest) =>
            (flowValue? handles n [.flowEntry, .flowSequenceEnd] rest).bind fun (value, rest) =>
              (flowItems? handles n false rest).map fun (items, rest) =>
                (.mapping {} [(key, value)] :: items, rest)
        | _ =>
          (node? handles n false false tokens).bind fun (item, rest) =>
            (flowItems? handles n false rest).map fun (items, rest) => (item :: items, rest)

/-- The value after a key in a flow collection. -/
def flowValue? (handles : Handles) :
    Nat → List Token → List Token → Option (NamedNode × List Token)
  | 0, _, _ => none
  | n + 1, stops, tokens =>
    match tokens with
    | .value :: rest => flowNodeOr? handles n stops rest
    | rest => some (empty, rest)

/-- The entries of a flow mapping up to its brace. -/
def flowEntries? (handles : Handles) :
    Nat → Bool → List Token → Option (List (NamedNode × NamedNode) × List Token)
  | 0, _, _ => none
  | n + 1, first, tokens =>
    match tokens with
    | .flowMappingEnd :: rest => some ([], rest)
    | _ =>
      let separated := match first, tokens with
        | true, _ => some tokens
        | false, .flowEntry :: rest => some rest
        | false, _ => none
      separated.bind fun tokens =>
        match tokens with
        | .flowMappingEnd :: rest => some ([], rest)
        | .key :: rest =>
          (flowNodeOr? handles n [.value, .flowEntry, .flowMappingEnd] rest).bind
            fun (key, rest) =>
              (flowValue? handles n [.flowEntry, .flowMappingEnd] rest).bind fun (value, rest) =>
                (flowEntries? handles n false rest).map fun (entries, rest) =>
                  ((key, value) :: entries, rest)
        | _ =>
          (node? handles n false false tokens).bind fun (key, rest) =>
            (flowEntries? handles n false rest).map fun (entries, rest) =>
              ((key, empty) :: entries, rest)

end

/-- The node that the tokens of a document start with, and the tokens after it. -/
def ofTokens? (handles : Handles) (tokens : List Token) : Option (NamedNode × List Token) :=
  node? handles (3 * tokens.length + 3) true false tokens

end Node

/-! ## Streams -/

/-- Whether a token is a directive. -/
def Token.isDirective : Token → Bool
  | .version .. => true
  | .tagHandle .. => true
  | _ => false

/-- The tag handles that directives declare, with the default ones behind them. At most one version
may be given, which must be 1.1 or 1.2, and no handle may be declared twice. -/
def handles? (directives : List Token) : Option Node.Handles :=
  let versions := directives.filterMap fun
    | .version major minor => some (major, minor)
    | _ => none
  let declared := directives.filterMap fun
    | .tagHandle handle start => some (handle, start)
    | _ => none
  let versionsOk := versions.length ≤ 1 && versions.all fun v => v.1 == 1 && (v.2 == 1 || v.2 == 2)
  if versionsOk && (declared.map (·.1)).eraseDups.length == declared.length then
    some (declared ++ Node.defaultHandles)
  else none

/-- The documents of the segments whose tokens are given. `pending` holds the directives that wait
for the document they belong to; only directives may stand between two documents. -/
def documentNodes? (pending : List Token) :
    List (Marker × List Token) → Option (List NamedNode)
  | [] => if pending.isEmpty then some [] else none
  | (marker, tokens) :: more =>
    let bare := tokens.all Token.isDirective
    match marker with
    | .streamStart =>
      if tokens.isEmpty && more.head?.any (fun s => s.1 == .documentEnd) then none
      else if bare then documentNodes? tokens more
      else if tokens.head?.any Token.isDirective then none
      else
        (Node.ofTokens? Node.defaultHandles tokens).bind fun (node, rest) =>
          if rest.all Token.isDirective then (documentNodes? rest more).map (node :: ·) else none
    | .documentStart =>
      (handles? pending).bind fun handles =>
        if tokens.isEmpty || tokens.head?.any Token.isDirective then
          if bare then (documentNodes? tokens more).map (Node.empty :: ·) else none
        else
          (Node.ofTokens? handles tokens).bind fun (node, rest) =>
            if rest.all Token.isDirective then (documentNodes? rest more).map (node :: ·) else none
    | .documentEnd => if pending.isEmpty && bare then documentNodes? tokens more else none

/-- The documents of a stream. -/
def nodes? (stream : List Char) : Option (List NamedNode) :=
  if stream.all isAllowed then
    ((segments stream).mapM fun s => (tokens? s).map fun tokens => (s.marker, tokens)).bind
      (documentNodes? [])
  else none

end WorkflowRecipes.Yaml
