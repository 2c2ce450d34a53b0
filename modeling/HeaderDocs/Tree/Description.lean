import HeaderDocs.Comment.Markup
import HeaderDocs.Comment.Normal
import HeaderDocs.Tree.Node

/-!
# Descriptions of nodes

`describe` attaches the text of a comment to a node. A node is public if it has a description that
does not hide it.
-/
namespace HeaderDocs.Node

/-- A description with the given text; the empty text leaves it without children. -/
def descriptionOf (text : String) : Node :=
  { kind := .description, children := if text == "" then [] else [prose text] }

/-- Replaces the description of a node. The new one is its last child. -/
def setDescription (n : Node) (text : String) : Node :=
  { n with children := n.children.eraseP (isKind .description) ++ [descriptionOf text] }

/-- Describes a node by a comment. Only arguments take a direction from it. -/
def describe (n : Node) (raw : String) : Node :=
  let comment := Comment.normalize raw
  let n :=
    if n.kind == .argument && comment.direction.isSome then
      { n with attrs := { n.attrs with direction := comment.direction } }
    else n
  n.setDescription comment.text

def describeIf (n : Node) : Option String → Node
  | some raw => n.describe raw
  | none => n

/-- Whether a node hides itself. -/
def isPrivate (n : Node) : Bool := Comment.isPrivate n.descriptionText

/-! ## Public nodes -/

/-- Whether a node is published: it has a description, and that does not hide it. -/
def isPublic (n : Node) : Bool :=
  match n.child? .description with
  | some description => !Comment.isPrivate description.text
  | none => false

/-- The public children of a kind that have the name, or any name where none is given. -/
def publicChildren (n : Node) (kind : Kind) (name : Option String) : List Node :=
  n.children.filter fun c => c.isNamed kind name && c.isPublic

/-! ## Lemmas -/

@[simp] theorem kind_setDescription (n : Node) (text : String) :
    (n.setDescription text).kind = n.kind := rfl

@[simp] theorem text_descriptionOf (text : String) : (descriptionOf text).text = text := by
  by_cases h : text = ""
  · simp [descriptionOf, h, Node.text, joinText]
  · simp [descriptionOf, h, Node.text, joinText, prose, Kind.isText, String.append_empty]

@[simp] theorem kind_describe (n : Node) (raw : String) : (n.describe raw).kind = n.kind := by
  unfold describe
  dsimp only
  split <;> simp

end HeaderDocs.Node
