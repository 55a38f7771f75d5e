import SqlStatement.Proofs.Json.Reading
import SqlStatement.Proofs.Tree.Tiling
import SqlStatement.Tree.Export

namespace SqlStatement

namespace Json

def string? : Json → Option String
  | .string s => some s
  | _ => none

def number? : Json → Option Nat
  | .number n => some n
  | _ => none

def span? : Json → Option Span
  | .object fields => do
    let start ← (fields.lookup "start").bind number?
    let stop ← (fields.lookup "end").bind number?
    some ⟨start, stop⟩
  | _ => none

mutual

/-- The values of the text fields of a document, in its order. -/
def texts : Json → List String
  | .object fields => fieldTexts fields
  | .array items => itemTexts items
  | _ => []

def itemTexts : List Json → List String
  | [] => []
  | item :: items => item.texts ++ itemTexts items

def fieldTexts : List (String × Json) → List String
  | [] => []
  | (name, value) :: fields =>
    (if name == "text" then value.string?.toList else []) ++ value.texts ++ fieldTexts fields

end

end Json

namespace Tree

def Role.ofTag? (kind : String) (name : Option String) : Option Role :=
  if kind == "token" then some .token
  else if kind == "identifier" then name.map .identifier
  else if kind == "string" then name.map .stringLiteral
  else none

def Label.ofTag? (kind : String) (name : Option String) (branch : Option Nat) : Option Label :=
  if kind == "production" then name.map .production
  else if kind == "alternation" then branch.map .alternation
  else if kind == "optional" then some .optional
  else if kind == "repetition" then some .repetition
  else if kind == "item" then some .item
  else if kind == "separator" then some .separator
  else none

mutual

/-- The tree that an object describes. -/
def ofJson? : Json → Option Tree
  | .object fields => do
    let kind ← (fields.lookup "kind").bind Json.string?
    let span ← (fields.lookup "span").bind Json.span?
    let name := (fields.lookup "name").bind Json.string?
    let branch := (fields.lookup "branch").bind Json.number?
    let children ← ofFields? fields
    match Role.ofTag? kind name with
    | some role => some (.leaf role span.start)
    | none => (Label.ofTag? kind name branch).map fun label => .node label span children
  | _ => none

/-- The trees below the one that the fields describe. -/
def ofFields? : List (String × Json) → Option (List Tree)
  | [] => some []
  | (name, value) :: fields =>
    if name == "children" then
      match value with
      | .array items => ofItems? items
      | _ => none
    else ofFields? fields

def ofItems? : List Json → Option (List Tree)
  | [] => some []
  | item :: items => do
    let t ← ofJson? item
    let ts ← ofItems? items
    some (t :: ts)

end

end Tree

@[simp]
theorem Span.span?_toJson (s : Span) : s.toJson.span? = some s := rfl

namespace Tree

/-- A document is read by its tag, name, branch and range, and by the fields behind
    them. -/
theorem ofJson?_object {kind : String} {name : Option String} {branch : Option Nat} {span : Span}
    {below : List (String × Json)} (hname : below.lookup "name" = none)
    (hbranch : below.lookup "branch" = none) :
    ofJson? (.object ([("kind", .string kind)] ++ Json.field? "name" .string name
      ++ Json.field? "branch" .number branch ++ [("span", span.toJson)] ++ below)) =
    (ofFields? below).bind fun children =>
      match Role.ofTag? kind name with
      | some role => some (.leaf role span.start)
      | none => (Label.ofTag? kind name branch).map fun label => .node label span children := by
  cases name <;> cases branch <;>
    simp [ofJson?, ofFields?, Json.field?, List.lookup_cons, Json.string?, Json.number?, hname,
      hbranch]

/-- The texts in a document are in the fields behind its range. The fields in front
    of them are names, numbers and the range, which are no texts of tokens. -/
theorem texts_object (kind : String) (name : Option String) (branch : Option Nat) (span : Span)
    (below : List (String × Json)) :
    (Json.object ([("kind", .string kind)] ++ Json.field? "name" .string name
      ++ Json.field? "branch" .number branch ++ [("span", span.toJson)] ++ below)).texts =
    Json.fieldTexts below := by
  cases name <;> cases branch <;>
    simp [Json.texts, Json.fieldTexts, Json.field?, Span.toJson]

theorem Role.ofTag?_tag (role : Role) : ofTag? role.tag role.name? = some role := by
  cases role <;> rfl

/-- The tag of a node is not that of a leaf. -/
theorem Role.ofTag?_labelTag (label : Label) : ofTag? label.tag label.name? = none := by
  cases label <;> rfl

/-- The label of a node is read back from its tag, its name and its branch. -/
theorem Label.ofTag?_tag (label : Label) :
    ofTag? label.tag label.name? label.branch? = some label := by
  cases label <;> rfl

end Tree

namespace Parsed

open SqlStatement.Tree (ofJson? ofItems?)

variable (p : Parsed)

/-- The field with the children, if there are any. -/
def belowToJson (children : List Tree) : List (String × Json) :=
  if children.isEmpty then [] else [("children", .array (p.forestToJson children))]

/-- The document of a leaf, in the form in which documents are read back. -/
theorem treeToJson_leaf (role : Tree.Role) (index : Nat) :
    p.treeToJson (.leaf role index) = .object ([("kind", .string role.tag)]
      ++ Json.field? "name" .string role.name? ++ Json.field? "branch" .number none
      ++ [("span", Span.toJson ⟨index, index + 1⟩)] ++ [("text", .string (p.textAt index))]) := by
  cases role <;> rfl

/-- That of a node, with its children behind its range. -/
theorem treeToJson_node (label : Tree.Label) (span : Span) (children : List Tree) :
    p.treeToJson (.node label span children) = .object ([("kind", .string label.tag)]
      ++ Json.field? "name" .string label.name? ++ Json.field? "branch" .number label.branch?
      ++ [("span", span.toJson)] ++ p.belowToJson children) := by
  cases children <;> rfl

/-- The children are read back from their field, or from there being none. A node
    without children has no such field. -/
theorem ofFields?_belowToJson {children : List Tree}
    (h : ofItems? (p.forestToJson children) = some children) :
    Tree.ofFields? (p.belowToJson children) = some children := by
  cases children with
  | nil => simp [belowToJson, Tree.ofFields?]
  | cons t ts => simpa [belowToJson, Tree.ofFields?] using h

mutual

/-- A tree is read back from its document. The recursion is that of the tree. -/
theorem ofJson?_treeToJson : ∀ t : Tree, ofJson? (p.treeToJson t) = some t
  | .leaf role index => by
    rw [treeToJson_leaf, Tree.ofJson?_object rfl rfl, Tree.Role.ofTag?_tag]
    simp [Tree.ofFields?]
  | .node label span children => by
    have hname : (p.belowToJson children).lookup "name" = none := by cases children <;> rfl
    have hbranch : (p.belowToJson children).lookup "branch" = none := by cases children <;> rfl
    rw [treeToJson_node, Tree.ofJson?_object hname hbranch,
      p.ofFields?_belowToJson (ofItems?_forestToJson children), Tree.Role.ofTag?_labelTag,
      Tree.Label.ofTag?_tag]
    rfl

/-- And so is a row of trees. -/
theorem ofItems?_forestToJson : ∀ ts : List Tree, ofItems? (p.forestToJson ts) = some ts
  | [] => by rw [forestToJson, ofItems?]
  | t :: ts => by
    rw [forestToJson, ofItems?, ofJson?_treeToJson t, ofItems?_forestToJson ts]
    rfl

end

/-- The texts behind the range of a node are those of its children. -/
theorem fieldTexts_belowToJson (children : List Tree) :
    Json.fieldTexts (p.belowToJson children) = Json.itemTexts (p.forestToJson children) := by
  cases children <;> simp [belowToJson, Json.fieldTexts, Json.itemTexts, Json.texts, forestToJson]

mutual

/-- The texts in the document of a tree are those of its leaves. A leaf has one
    text, and a node has those of its children in order. -/
theorem texts_treeToJson :
    ∀ t : Tree, (p.treeToJson t).texts = (Tree.leafIndices [t]).map p.textAt
  | .leaf role index => by
    have hleaf : Tree.leafIndices [.leaf role index] = [index] := rfl
    rw [treeToJson_leaf, Tree.texts_object, hleaf]
    simp [Json.fieldTexts, Json.texts, Json.string?]
  | .node label span children => by
    rw [treeToJson_node, Tree.texts_object, fieldTexts_belowToJson,
      texts_forestToJson children, Tree.leafIndices_node]

/-- And so it is for a row of trees. -/
theorem texts_forestToJson :
    ∀ ts : List Tree, Json.itemTexts (p.forestToJson ts) = (Tree.leafIndices ts).map p.textAt
  | [] => rfl
  | t :: ts => by
    rw [forestToJson, Json.itemTexts, texts_treeToJson t, texts_forestToJson ts,
      Tree.leafIndices_cons t ts, List.map_append]

end

/-- The texts at a range of tokens, one token after the other. Each of the indices
    is inside of the tokens. -/
theorem map_textAt_range' {start stop : Nat} (hstop : stop ≤ p.tokens.size) :
    (List.range' start (stop - start)).map p.textAt =
      (p.tokens.extract start stop).toList.map (·.text) := by
  apply List.ext_getElem
  · simp only [List.length_map, List.length_range', Array.length_toList, Array.size_extract]
    omega
  · intro i hi _
    have hlt : start + i < p.tokens.size := by
      simp only [List.length_map, List.length_range'] at hi
      omega
    simp [textAt, hlt]

/-- The texts in the document of a tree that leaves no token out are those that it
    covers. -/
theorem texts_toJson (htiled : p.root.Tiled) (hstop : p.root.span.stop ≤ p.tokens.size) :
    p.toJson.texts =
      (p.tokens.extract p.root.span.start p.root.span.stop).toList.map (·.text) := by
  rw [toJson, texts_treeToJson, htiled.leafIndices_eq, p.map_textAt_range' hstop]

end Parsed

namespace Parser

/-- The document of every tree that `parse` or `parsePrefix` returns is read back as
    the tree, and so is its text. The texts in it are those of the tokens that the
    tree covers. Trees over the same tokens with the same text are the same. -/
theorem toJson_lossless (p : Parser) (source : List Token) :
    (∀ parsed, p.Returns source parsed →
      Tree.ofJson? parsed.toJson = some parsed.root ∧
      (Json.parse? parsed.toJson.pretty).bind Tree.ofJson? = some parsed.root ∧
      parsed.toJson.texts = (parsed.tokens.extract parsed.root.span.start
        parsed.root.span.stop).toList.map (·.text)) ∧
    ∀ (q : Parser) (a b : Parsed), p.Returns source a → q.Returns source b →
      a.toJson.pretty = b.toJson.pretty → a = b := by
  have hread (parsed : Parsed) : Tree.ofJson? parsed.toJson = some parsed.root :=
    parsed.ofJson?_treeToJson parsed.root
  refine ⟨fun parsed h => ⟨hread parsed, ?_, parsed.texts_toJson h.tiled h.stop_le⟩, ?_⟩
  · rw [Json.parse?_pretty, Option.bind_some, hread]
  · intro q a b ha hb htext
    have hjson : a.toJson = b.toJson := by
      rw [← Option.some.injEq, ← Json.parse?_pretty a.toJson, htext, Json.parse?_pretty]
    have hroot : a.root = b.root := by
      rw [← Option.some.injEq, ← hread a, hjson, hread b]
    have htokens : a.tokens = b.tokens := ha.matched.2.trans hb.matched.2.symm
    cases a
    cases b
    exact (Parsed.mk.injEq ..).mpr ⟨hroot, htokens⟩

/-- The document of `SELECT 1;` has the texts in front of the semicolon. The tree is
    read back from the printed document. -/
theorem toJson_lossless_select : ∃ parsed : Parsed,
    (ofGrammar Sqlite.grammar).parse [⟨.keyword .SELECT, "SELECT", ⟨0, 6⟩⟩,
      ⟨.integer, "1", ⟨7, 8⟩⟩, ⟨.symbol .semicolon, ";", ⟨8, 9⟩⟩] = .ok parsed ∧
    (Json.parse? parsed.toJson.pretty).bind Tree.ofJson? = some parsed.root ∧
    parsed.toJson.texts = ["SELECT", "1"] := by
  generalize hsource : ([⟨.keyword .SELECT, "SELECT", ⟨0, 6⟩⟩, ⟨.integer, "1", ⟨7, 8⟩⟩,
    ⟨.symbol .semicolon, ";", ⟨8, 9⟩⟩] : List Token) = source
  have hspan : ((ofGrammar Sqlite.grammar).parse source).toOption.map
      (fun parsed => (parsed.root.span, parsed.tokens.toList.map (·.text))) =
      some (⟨0, 2⟩, ["SELECT", "1", ";"]) := by
    subst hsource
    decide +kernel
  cases hparse : (ofGrammar Sqlite.grammar).parse source with
  | ok parsed =>
    rw [hparse] at hspan
    obtain ⟨hroot, htokens⟩ := Prod.mk.inj (Option.some.inj hspan)
    obtain ⟨-, hread, htexts⟩ := (toJson_lossless _ source).1 parsed (.inl hparse)
    refine ⟨parsed, rfl, hread, ?_⟩
    rw [htexts, hroot, Array.toList_extract, List.extract_eq_take_drop, List.map_take,
      List.map_drop, htokens]
    rfl
  | error e =>
    rw [hparse] at hspan
    cases hspan

end Parser

end SqlStatement
