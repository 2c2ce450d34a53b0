import HeaderDocs.Text.Substitute
import HeaderDocs.Tree.Description
import HeaderDocs.Tree.Path

/-!
# Nodes with their surroundings

What a node is called depends on the nodes around it: its qualified name is the names from the
outermost scope inwards, joined by pairs of colons, and its anchor is made from that. A `Located`
node carries the nodes above it.
-/
namespace HeaderDocs

open HeaderDocs.Text

/-- A node with the nodes above it, nearest first. -/
structure Located where
  node : Node
  above : List Node := []

namespace Located

def child (l : Located) (node : Node) : Located := { node, above := l.node :: l.above }

/-- The node that a path leads to. -/
def get? (l : Located) : Path → Option Located
  | [] => some l
  | i :: path => (l.node.children[i]?).bind fun c => (l.child c).get? path

/-- The names of a node and the nodes above it, up to the root of the documentation. -/
def qualifiedName (l : Located) : String :=
  let named := (l.node :: l.above).takeWhile (·.kind != .root)
  let names := (named.filterMap (·.name)).filter (· != "")
  String.intercalate "::" names.reverse

/-- The word that the anchors of a kind start with. -/
def anchorWord : Kind → String
  | .nameSpace => "ns"
  | .classType => "class"
  | .structType => "struct"
  | .unionType => "union"
  | .enumType => "enum"
  | .constant => "enumval"
  | .typeAlias => "type"
  | .function => "func"
  | .var => "var"
  | _ => "sym"

def anchor (l : Located) : String :=
  anchorWord l.node.kind ++ "-" ++
    onChars (replace [':', ':'] ['.']) l.qualifiedName

mutual

/-- The public nodes of a kind in a tree: its children, then those of its public namespaces. -/
def publicNodesOf (kind : Kind) (above : List Node) : Node → List Located
  | ⟨k, attrs, content, spaced, children⟩ =>
    let node : Node := ⟨k, attrs, content, spaced, children⟩
    (node.publicChildren kind none).map (fun c => { node := c, above := node :: above }) ++
      publicNodesIn kind (node :: above) children

def publicNodesIn (kind : Kind) (above : List Node) : List Node → List Located
  | [] => []
  | n :: ns =>
    (if n.kind == .nameSpace && n.isPublic then publicNodesOf kind above n else []) ++
      publicNodesIn kind above ns

end

/-- The public nodes of a kind at the top of a tree and in its public namespaces. -/
def publicNodes (tree : Node) (kind : Kind) : List Located := publicNodesOf kind [] tree

mutual

/-- The nodes of a tree with what is above them, each before its children. -/
def walkFrom (above : List Node) : Node → List Located
  | ⟨k, attrs, content, spaced, children⟩ =>
    let node : Node := ⟨k, attrs, content, spaced, children⟩
    { node, above } :: walkAll (node :: above) children

def walkAll (above : List Node) : List Node → List Located
  | [] => []
  | n :: ns => walkFrom above n ++ walkAll above ns

end

/-- The nodes of a tree with what is above them, each before its children. -/
def walk (tree : Node) : List Located := walkFrom [] tree

end Located

end HeaderDocs
