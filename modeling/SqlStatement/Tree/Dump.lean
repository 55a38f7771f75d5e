import SqlStatement.Palette
import SqlStatement.Tree.Parsed

namespace SqlStatement

namespace Tree

def Label.tag : Label → String
  | .production _ => "production"
  | .alternation _ => "alternation"
  | .optional => "optional"
  | .repetition => "repetition"
  | .item => "item"
  | .separator => "separator"

def Role.tag : Role → String
  | .token => "token"
  | .identifier _ => "identifier"
  | .stringLiteral _ => "string"

end Tree

namespace Parsed

def describeLabel (palette : Palette) : Tree.Label → String
  | .production name => palette.paintProduction name
  | .alternation branch => palette.paintDim s!"alt #{branch}"
  | label => palette.paintDim label.tag

def describeLeaf (palette : Palette) (text : String) : Tree.Role → String
  | .token => palette.paintKeyword text
  | .identifier description | .stringLiteral description =>
    palette.paintName text ++ " " ++ palette.paintDim ("<" ++ description ++ ">")

def describeSpan (palette : Palette) (s : Span) : String :=
  " " ++ palette.paintDim s!"[{s.start}..{s.stop}]"

def indented (depth : Nat) (line : String) : String :=
  String.ofList (List.replicate (2 * depth) ' ') ++ line ++ "\n"

mutual

def dumpTree (p : Parsed) (palette : Palette) (spans : Bool) (depth : Nat) : Tree → String
  | .leaf role index =>
    let range := if spans then describeSpan palette ⟨index, index + 1⟩ else ""
    indented depth (describeLeaf palette (p.textAt index) role ++ range)
  | .node label span children =>
    let range := if spans then describeSpan palette span else ""
    indented depth (describeLabel palette label ++ range)
      ++ p.dumpForest palette spans (depth + 1) children
  termination_by structural t => t

def dumpForest (p : Parsed) (palette : Palette) (spans : Bool) (depth : Nat) :
    List Tree → String
  | [] => ""
  | t :: ts => p.dumpTree palette spans depth t ++ p.dumpForest palette spans depth ts
  termination_by structural ts => ts

end

/-- The indented dump of a tree, with one line for each tree in it. -/
def dump (p : Parsed) (palette : Palette) (spans : Bool) : String :=
  p.dumpTree palette spans 0 p.root

/-- A production around the parts below it. One part stands for itself. -/
def enclose (palette : Palette) (name : String) (parts : List String) : List String :=
  match parts with
  | _ :: _ :: _ =>
    ["(" ++ palette.paintProduction name ++ " " ++ " ".intercalate parts ++ ")"]
  | _ => parts

mutual

def compactParts (p : Parsed) (palette : Palette) : Tree → List String
  | .leaf _ index => [p.textAt index]
  | .node (.production name) _ children =>
    enclose palette name (p.compactForest palette children)
  | .node _ _ children => p.compactForest palette children
  termination_by structural t => t

def compactForest (p : Parsed) (palette : Palette) : List Tree → List String
  | [] => []
  | t :: ts => p.compactParts palette t ++ p.compactForest palette ts
  termination_by structural ts => ts

end

/-- The compact view of a tree: an S-expression of the productions that hold more
    than one part. -/
def compact (p : Parsed) (palette : Palette) : String :=
  " ".intercalate (p.compactParts palette p.root) ++ "\n"

end Parsed

end SqlStatement
