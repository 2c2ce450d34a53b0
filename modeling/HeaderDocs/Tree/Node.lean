import HeaderDocs.Tree.Kind

/-!
# Documentation trees

A node has a kind, attributes, and children in order. Two kinds of nodes also carry text: words of a
written type, which know whether a space separates them from the word before, and the prose of a
description.

`joinText` puts pieces of text together, and `text` does so for the children of a node; the type and
the description of a node are its first children of those kinds.
-/
namespace HeaderDocs

/-- What is recorded of a declaration besides its kind. -/
structure Attributes where
  name : Option String := none
  /-- The access to a member: public, protected or private. -/
  scope : Option String := none
  /-- The types a class or structure derives from. -/
  base : Option String := none
  /-- The initial value of a variable, or the default of an argument. -/
  initial : Option String := none
  /-- Which way an argument is passed: `I`, `O` or `IO`. -/
  direction : Option String := none
deriving DecidableEq, Repr

/-- A node of a documentation tree. -/
structure Node where
  kind : Kind
  attrs : Attributes := {}
  /-- The text of words and prose. -/
  content : String := ""
  /-- Whether a word is separated from the one before. -/
  spaced : Bool := false
  children : List Node := []
deriving Repr

namespace Node

instance : Inhabited Node := ⟨{ kind := .root }⟩

abbrev name (n : Node) : Option String := n.attrs.name

abbrev scope (n : Node) : Option String := n.attrs.scope

def empty : Node := { kind := .root }

def ofName (kind : Kind) (name : String) : Node := { kind, attrs := { name := some name } }

def word (content : String) (spaced : Bool) : Node := { kind := .word, content, spaced }

def prose (content : String) : Node := { kind := .prose, content }

def withName (n : Node) (name : String) : Node :=
  { n with attrs := { n.attrs with name := some name } }

def withScope (n : Node) (scope : Option String) : Node :=
  { n with attrs := { n.attrs with scope } }

def withChildren (n : Node) (children : List Node) : Node := { n with children }

/-- Adds a child after all others. -/
def push (n : Node) (child : Node) : Node := { n with children := n.children ++ [child] }

/-! ## Children by kind -/

def isKind (kind : Kind) (n : Node) : Bool := n.kind == kind

def child? (n : Node) (kind : Kind) : Option Node := n.children.find? (isKind kind)

def childrenOf (n : Node) (kind : Kind) : List Node := n.children.filter (isKind kind)

/-- Whether a node has the kind and, where one is given, the name. -/
def isNamed (kind : Kind) (name : Option String) (n : Node) : Bool :=
  n.kind == kind && (name.isNone || n.name == name)

/-- The first child of a kind that has the name, or any name where none is given. -/
def find? (n : Node) (kind : Kind) (name : Option String) : Option Node :=
  n.children.find? (isNamed kind name)

/-! ## Text -/

/-- Puts pieces of text together. A spaced word has a space before it, unless it is the first
piece. -/
def joinText : List Node → String
  | [] => ""
  | piece :: pieces => piece.content ++ pieces.foldr separated ""
where
  separated (piece : Node) (rest : String) : String :=
    (if piece.kind == .word && piece.spaced then " " else "") ++ piece.content ++ rest

def text (n : Node) : String := joinText (n.children.filter (·.kind.isText))

/-- The type of a node as text; a written type stands for itself. -/
def typeText (n : Node) : String :=
  if n.kind == .typeExpr then n.text
  else match n.child? .typeExpr with
    | some type => type.text
    | none => ""

/-- The text of the description of a node, which is empty if it has none. -/
def descriptionText (n : Node) : String :=
  match n.child? .description with
  | some description => description.text
  | none => ""

/-! ## Walking -/

mutual

def walk : Node → List Node
  | ⟨kind, attrs, content, spaced, children⟩ =>
    ⟨kind, attrs, content, spaced, children⟩ :: walkAll children

def walkAll : List Node → List Node
  | [] => []
  | n :: ns => n.walk ++ walkAll ns

end

/-! ## Lemmas -/

@[simp] theorem children_push (n c : Node) : (n.push c).children = n.children ++ [c] := rfl

@[simp] theorem kind_withName (n : Node) (name : String) : (n.withName name).kind = n.kind := rfl

@[simp] theorem joinText_nil : joinText [] = "" := rfl

end Node

end HeaderDocs
