import Mathlib.Data.List.Forall2
import WorkflowRecipes.Yaml.Document
import WorkflowRecipes.Proofs.Document.Equality
import WorkflowRecipes.Proofs.Yaml.Starts

/-!
# Documents in one text

Several documents are written one after the other with a bare `---` line between them. Each is read
back as if it stood alone: no end of a document swallows or fakes a separator, and no start of one
is taken for something else.

Results:
1. `nodes?_join`: the nodes of renderings that are put together.
2. `documents?_render`: documents that are read back one by one are read back together.
-/

namespace WorkflowRecipes

namespace Yaml

/-- The first document, written by itself, is read back as the second. -/
def ReadsBackAs (doc read : Value) : Prop :=
  ∃ text, render [doc] = .ok text ∧ documents? text = some [read]

/-! ## Several renderings -/

theorem prefix_join (sep one : List Char) (rest : List (List Char)) :
    one <+: Text.join sep (one :: rest) := by
  cases rest with
  | nil => exact List.prefix_rfl
  | cons next rest =>
    rw [Text.join, List.append_assoc]
    exact List.prefix_append _ _

theorem opensDocument_join (doc : Value) (docs : List Value) :
    OpensDocument (Text.join separator ((doc :: docs).map renderDocument)) := by
  obtain ⟨more, hmore⟩ := prefix_join separator (renderDocument doc) (docs.map renderDocument)
  have hstarts := begins_renderDocument doc more
  rw [hmore] at hstarts
  exact hstarts.opens

/-- The nodes of renderings with separators between them are the nodes of each. -/
theorem nodes?_join {docs : List Value} {nodes : List NamedNode} (hne : docs ≠ [])
    (h : List.Forall₂ (fun doc node => nodes? (renderDocument doc) = some [node]) docs nodes) :
    nodes? (Text.join separator (docs.map renderDocument)) = some nodes := by
  induction h with
  | nil => exact absurd rfl hne
  | @cons doc node docs nodes hdoc hrest ih =>
    cases hrest with
    | nil => exact hdoc
    | @cons next _ docs _ _ _ =>
      exact nodes?_separated (isClosed_renderDocument doc) (opensDocument_join next docs) hdoc
        (ih (List.cons_ne_nil _ _))

/-- A text that opens a document holds one. -/
theorem OpensDocument.nodes_ne_nil {text : List Char} {nodes : List NamedNode}
    (hopens : OpensDocument text) (h : nodes? text = some nodes) : nodes ≠ [] := by
  obtain ⟨-, cut, hcut, hnodes⟩ := nodes?_eq_some_iff.mp h
  obtain ⟨first, rest, hsegments, htokens⟩ := hopens
  rw [hsegments, List.mapM_cons] at hcut
  obtain ⟨_, hfirst, hcut⟩ := Option.bind_eq_some_iff.mp hcut
  obtain ⟨restCut, -, hcut⟩ := Option.bind_eq_some_iff.mp hcut
  obtain ⟨tokens, htokens', rfl⟩ := Option.map_eq_some_iff.mp hfirst
  cases hcut
  obtain ⟨token, more, rfl, hdirective⟩ := htokens tokens htokens'
  rw [← documentNodes?_of_streamStart hdirective, documentNodes?] at hnodes
  obtain ⟨handles, -, hnodes⟩ := Option.bind_eq_some_iff.mp hnodes
  rw [if_neg (by simp [hdirective])] at hnodes
  obtain ⟨⟨node, left⟩, -, hnodes⟩ := Option.bind_eq_some_iff.mp hnodes
  dsimp only at hnodes
  split at hnodes
  · obtain ⟨others, -, rfl⟩ := Option.map_eq_some_iff.mp hnodes
    exact List.cons_ne_nil _ _
  · cases hnodes

/-! ## Several documents -/

/-- The value that a node stands for. -/
def nodeValue? (node : NamedNode) : Option Value := node.tree?.bind Value.ofTree?

theorem mapM_nodeValue? (nodes : List NamedNode) :
    ((nodes.mapM Node.tree?).bind fun trees => trees.mapM Value.ofTree?) =
      nodes.mapM nodeValue? := by
  induction nodes with
  | nil => rfl
  | cons node nodes ih =>
    rw [List.mapM_cons, List.mapM_cons, ← ih, nodeValue?]
    cases node.tree? with
    | none => rfl
    | some tree =>
      cases nodes.mapM Node.tree? with
      | none => cases hvalue : Value.ofTree? tree <;> simp [hvalue]
      | some trees => exact List.mapM_cons

theorem documents?_of_nodes {text : String} {nodes : List NamedNode} (hne : nodes ≠ [])
    (h : nodes? text.toList = some nodes) : documents? text = nodes.mapM nodeValue? := by
  rw [documents?, trees?, h, Option.bind_some, if_neg (by simpa using hne), mapM_nodeValue?]

/-- A document that is read back takes one node. -/
theorem ReadsBackAs.exists_node {doc read : Value} (h : ReadsBackAs doc read) :
    doc.fault? true false = none ∧
      ∃ node, nodes? (renderDocument doc) = some [node] ∧ nodeValue? node = some read := by
  obtain ⟨text, hrender, hread⟩ := h
  unfold render at hrender
  split at hrender
  · cases hrender
  next hfault =>
  cases hrender
  refine ⟨List.findSome?_eq_none_iff.mp hfault doc List.mem_cons_self, ?_⟩
  obtain ⟨trees, htrees, -⟩ := Option.bind_eq_some_iff.mp hread
  obtain ⟨nodes, hnodes, -⟩ := Option.bind_eq_some_iff.mp htrees
  have htext : nodes? (renderDocument doc) = some nodes := by
    rwa [String.toList_ofList] at hnodes
  have hne := (opensDocument_join doc []).nodes_ne_nil htext
  rw [documents?_of_nodes hne hnodes] at hread
  cases nodes with
  | nil => exact absurd rfl hne
  | cons node nodes =>
    rw [List.mapM_cons] at hread
    obtain ⟨value, hvalue, hread⟩ := Option.bind_eq_some_iff.mp hread
    obtain ⟨values, hvalues, hread⟩ := Option.bind_eq_some_iff.mp hread
    cases hread
    cases nodes with
    | nil => exact ⟨node, htext, hvalue⟩
    | cons next nodes =>
      rw [List.mapM_cons] at hvalues
      obtain ⟨_, -, hvalues⟩ := Option.bind_eq_some_iff.mp hvalues
      obtain ⟨_, -, hvalues⟩ := Option.bind_eq_some_iff.mp hvalues
      cases hvalues

theorem exists_nodes {docs : List Value}
    (halone : ∀ doc ∈ docs, ∃ read, ReadsBackAs doc read ∧ read.same doc = true) :
    ∃ nodes reads,
      List.Forall₂ (fun doc node => nodes? (renderDocument doc) = some [node]) docs nodes ∧
        nodes.mapM nodeValue? = some reads ∧
          List.Forall₂ (fun doc read => ReadsBackAs doc read ∧ read.same doc = true) docs reads := by
  induction docs with
  | nil => exact ⟨[], [], .nil, rfl, .nil⟩
  | cons doc docs ih =>
    obtain ⟨read, hread, hsame⟩ := halone doc List.mem_cons_self
    obtain ⟨-, node, hnode, hvalue⟩ := hread.exists_node
    obtain ⟨nodes, reads, hnodes, hvalues, hreads⟩ :=
      ih fun other hother => halone other (List.mem_cons_of_mem _ hother)
    refine ⟨node :: nodes, read :: reads, .cons hnode hnodes, ?_, .cons ⟨hread, hsame⟩ hreads⟩
    rw [List.mapM_cons, hvalue, hvalues]
    rfl

/-- Documents that are each read back when they stand alone are all read back from one text: as
many, in the same order, each as if it stood alone. -/
theorem documents?_render {docs : List Value} (hne : docs ≠ [])
    (halone : ∀ doc ∈ docs, ∃ read, ReadsBackAs doc read ∧ read.same doc = true) :
    ∃ text reads, render docs = .ok text ∧ documents? text = some reads ∧
      List.Forall₂ (fun doc read => ReadsBackAs doc read ∧ read.same doc = true) docs reads := by
  obtain ⟨nodes, reads, hnodes, hvalues, hreads⟩ := exists_nodes halone
  have hfault : docs.findSome? (Value.fault? true false) = none :=
    List.findSome?_eq_none_iff.mpr fun doc hdoc =>
      let ⟨_, hread, _⟩ := halone doc hdoc
      hread.exists_node.1
  have htext := nodes?_join hne hnodes
  refine ⟨String.ofList (Text.join separator (docs.map renderDocument)), reads, ?_, ?_, hreads⟩
  · rw [render, hfault]
    rfl
  · rw [documents?_of_nodes ?nonempty (by rw [String.toList_ofList]; exact htext), hvalues]
    rintro rfl
    cases hnodes
    exact hne rfl

/-- A block that holds a separator, with a null behind it. -/
theorem documents?_render_dashes :
    ∃ text reads, render [.string "---\n", .null] = .ok text ∧ documents? text = some reads ∧
      List.Forall₂ (fun doc read => ReadsBackAs doc read ∧ read.same doc = true)
        [.string "---\n", .null] reads := by
  refine documents?_render (List.cons_ne_nil _ _) fun doc hdoc => ?_
  rcases List.mem_cons.mp hdoc with rfl | hdoc
  · exact ⟨.string "---\n", ⟨"|\n  ---\n", rfl, by decide +kernel⟩, rfl⟩
  · rcases List.mem_singleton.mp hdoc with rfl
    exact ⟨.null, ⟨"null\n", rfl, by decide +kernel⟩, rfl⟩

end Yaml

end WorkflowRecipes
