import HeaderDocs.Text.Space
import HeaderDocs.Tree.Node
import HeaderDocs.Xml.Document

/-!
# Saved trees

A tree is saved as an XML document with one element for every node that is not a piece of text.
Written types and descriptions hold their text; a type is split into words again when it is loaded.
Elements that are no nodes are passed over.

* `toElement_name`: the element of a node is named for its kind.
-/
namespace HeaderDocs

open HeaderDocs.Text

/-- The names of attributes in a saved tree, with their values. -/
def Attributes.toList (a : Attributes) : List (String × Option String) :=
  [("name", a.name), ("scope", a.scope), ("parent", a.base), ("default", a.initial),
    ("direction", a.direction)]

def Attributes.toXml (a : Attributes) : List (Xml.QName × String) :=
  a.toList.filterMap fun (name, value) => value.map fun value =>
    ({ name }, Xml.safeText value)

/-- Why a text is not a saved tree. -/
inductive LoadError where
  | malformed
  /-- The document is about something else. -/
  | noRoot
deriving DecidableEq, Repr

def LoadError.message : LoadError → String
  | malformed => "invalid documentation XML"
  | noRoot => "documentation XML is missing the <apitree> root"

namespace Node

/-! ## Saving -/

mutual

def toElement : Node → Xml.Element
  | ⟨kind, attrs, content, spaced, children⟩ =>
    let name : Xml.QName := { name := kind.name }
    if kind == .typeExpr || kind == .description then
      let node : Node := ⟨kind, attrs, content, spaced, children⟩
      { name, attrs := attrs.toXml, text := Xml.safeText node.text }
    else { name, attrs := attrs.toXml, children := toElements children }

/-- The elements of a list of nodes. Pieces of text have none. -/
def toElements : List Node → List Xml.Element
  | [] => []
  | n :: ns => if n.kind.isText then toElements ns else n.toElement :: toElements ns

end

def toXml (tree : Node) : String := tree.toElement.toDocument

/-! ## Loading -/

/-- The value of an attribute of an element. -/
def attrOf (attrs : List (Xml.QName × String)) (name : String) : Option String :=
  (attrs.find? (·.1 == { name })).map (·.2)

def attributesOf (attrs : List (Xml.QName × String)) : Attributes :=
  { name := attrOf attrs "name", scope := attrOf attrs "scope", base := attrOf attrs "parent"
    initial := attrOf attrs "default", direction := attrOf attrs "direction" }

/-- The words of a type. All but the first are separated from the word before. -/
def typeWords (text : String) : List Node :=
  match wordsOf text with
  | [] => []
  | w :: ws => word w false :: ws.map (word · true)

mutual

def ofElement? : Xml.Element → Option Node
  | ⟨name, attrs, text, children⟩ =>
    match if name.qualifier.isNone then Kind.ofName? name.name else none with
    | none => none
    | some .typeExpr =>
      some { kind := .typeExpr, attrs := attributesOf attrs, children := typeWords text }
    | some .description =>
      some {
        kind := .description
        attrs := attributesOf attrs
        children := if text.isEmpty then [] else [prose text] }
    | some kind => some { kind, attrs := attributesOf attrs, children := ofElements children }

def ofElements : List Xml.Element → List Node
  | [] => []
  | e :: es =>
    match ofElement? e with
    | some n => n :: ofElements es
    | none => ofElements es

end

def ofXml (document : String) : Except LoadError Node :=
  match Xml.parse? document with
  | none => .error .malformed
  | some e =>
    if e.name == { name := Kind.root.name } then
      match ofElement? e with
      | some n => .ok n
      | none => .error .noRoot
    else .error .noRoot

theorem toElement_name (n : Node) : n.toElement.name = { name := n.kind.name } := by
  cases n
  simp only [toElement]
  split <;> rfl

end Node

end HeaderDocs
