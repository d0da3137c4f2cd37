import WorkflowRecipes.Yaml.Node

/-!
# Aliases

An alias stands for a copy of the node that carries its anchor. `Node.tree?` puts the copies in. It
refuses an alias without an anchor, collections nested more than `deepest` levels, and documents
whose copies grow out of proportion to their text.
-/

namespace WorkflowRecipes.Yaml

/-- How deep collections may nest. -/
def deepest : Nat := 128

/-- How many copies are allowed for each event of a document. -/
def copiesPerEvent : Nat := 100

namespace Node

/-- The anchors met so far. Each name has a number, and each number the node that last took it,
with the order in which the nodes started. A name gets as its number how many different names there
were before, so a name that is used again shares its new number with the next new name. -/
structure Anchors where
  numbers : List (List Char × Nat) := []
  nodes : List (Nat × Nat × Node Nat) := []
  started : Nat := 0

namespace Anchors

/-- Give the anchor of a node that starts here its number. -/
def start (anchors : Anchors) (name : Option (List Char)) : Option (Nat × Nat) × Anchors :=
  match name with
  | none => (none, anchors)
  | some name =>
    let number := anchors.numbers.length
    let others := anchors.numbers.filter fun e => e.1 != name
    (some (number, anchors.started),
      { anchors with numbers := (name, number) :: others, started := anchors.started + 1 })

/-- Note the finished node of a number. -/
def finish (anchors : Anchors) (place : Option (Nat × Nat)) (node : Node Nat) : Anchors :=
  match place with
  | none => anchors
  | some (number, order) => { anchors with nodes := (number, order, node) :: anchors.nodes }

/-- The node of a number: of several the one that started last. -/
def node? (anchors : Anchors) (number : Nat) : Option (Node Nat) :=
  let taken := anchors.nodes.filter fun e => e.1 == number
  let last := taken.foldl (fun best e =>
    match best with
    | none => some e
    | some b => if b.2.1 < e.2.1 then some e else some b) none
  last.map (·.2.2)

end Anchors

mutual

/-- Replace the name of every alias by its number. -/
def number? : NamedNode → StateT Anchors Option (Node Nat)
  | .alias name => do
    let anchors ← get
    match anchors.numbers.find? fun e => e.1 == name with
    | some (_, number) => pure (.alias number)
    | none => failure
  | .scalar properties text style => do
    let place ← modifyGet fun anchors => anchors.start properties.anchor
    let node := .scalar properties text style
    modify fun anchors => anchors.finish place node
    pure node
  | .sequence properties items => do
    let place ← modifyGet fun anchors => anchors.start properties.anchor
    let node := .sequence properties (← numberItems? items)
    modify fun anchors => anchors.finish place node
    pure node
  | .mapping properties entries => do
    let place ← modifyGet fun anchors => anchors.start properties.anchor
    let node := .mapping properties (← numberEntries? entries)
    modify fun anchors => anchors.finish place node
    pure node

/-- Number the aliases of a sequence's items. -/
def numberItems? : List NamedNode → StateT Anchors Option (List (Node Nat))
  | [] => pure []
  | item :: rest => do
    let item ← number? item
    pure (item :: (← numberItems? rest))

/-- Number the aliases of a mapping's entries. -/
def numberEntries? : List (NamedNode × NamedNode) →
    StateT Anchors Option (List (Node Nat × Node Nat))
  | [] => pure []
  | (key, value) :: rest => do
    let key ← number? key
    let value ← number? value
    pure ((key, value) :: (← numberEntries? rest))

end

mutual

/-- How many events a node takes: one for a scalar or an alias, two for the ends of a collection. -/
def eventCount {ref : Type} : Node ref → Nat
  | .alias _ => 1
  | .scalar .. => 1
  | .sequence _ items => 2 + itemsEventCount items
  | .mapping _ entries => 2 + entriesEventCount entries

/-- How many events a sequence's items take. -/
def itemsEventCount {ref : Type} : List (Node ref) → Nat
  | [] => 0
  | item :: rest => eventCount item + itemsEventCount rest

/-- How many events a mapping's entries take. -/
def entriesEventCount {ref : Type} : List (Node ref × Node ref) → Nat
  | [] => 0
  | (key, value) :: rest => eventCount key + eventCount value + entriesEventCount rest

end

/-- Put copies in the place of aliases, with collections at most `depth` levels deep. The state is
the number of copies still allowed. -/
def copy? (anchors : Anchors) : Nat → Node Nat → StateT Nat Option Tree
  | 0, node => do
    let node ← target node
    match node with
    | .scalar properties text style => pure (.scalar properties text style)
    | _ => failure
  | depth + 1, node => do
    let node ← target node
    match node with
    | .scalar properties text style => pure (.scalar properties text style)
    | .sequence properties items =>
      pure (.sequence properties (← items.mapM (copy? anchors depth)))
    | .mapping properties entries =>
      pure (.mapping properties (← entries.mapM fun (key, value) => do
        let key ← copy? anchors depth key
        pure (key, ← copy? anchors depth value)))
    | .alias _ => failure
where
  /-- The node that an alias refers to, and any other node itself. -/
  target (node : Node Nat) : StateT Nat Option (Node Nat) :=
    match node with
    | .alias number => do
      match (← get), anchors.node? number with
      | left + 1, some node => set left; pure node
      | _, _ => failure
    | node => pure node

/-- The document with its aliases replaced by copies. -/
def tree? (node : NamedNode) : Option Tree :=
  (number? node |>.run {}).bind fun (node, anchors) =>
    (copy? anchors deepest node |>.run (copiesPerEvent * node.eventCount)).map (·.1)

end Node

/-- The trees of a stream; a stream without documents has one that is empty. -/
def trees? (stream : List Char) : Option (List Tree) :=
  (nodes? stream).bind fun nodes =>
    if nodes.isEmpty then some [Node.empty] else nodes.mapM Node.tree?

end WorkflowRecipes.Yaml
