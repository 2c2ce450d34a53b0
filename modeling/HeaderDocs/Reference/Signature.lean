import HeaderDocs.Reference.Located

/-!
# Signatures

The declaration of a node, written out again from what was recorded of it. Members that are private
are left out of the declarations of records, and so is the return type of constructors and
destructors.
-/
namespace HeaderDocs

open HeaderDocs.Text

/-- Puts a type before a name. There is no space after a star or an ampersand. -/
def joinDeclared (type name : String) : String :=
  match type.toList.getLast? with
  | none => name
  | some last => if last == '*' || last == '&' then type ++ name else type ++ " " ++ name

/-- Adds the value that a declaration gives. -/
def withInitial (declared : String) (initial : Option String) : String :=
  match initial with
  | some value => if value.isEmpty then declared else declared ++ " = " ++ value
  | none => declared

namespace Node

/-- The name of a node as it is shown, where even a node without a name needs one. -/
def shownName (n : Node) : String := n.name.getD "None"

def argumentList (n : Node) : String :=
  let arguments := (n.childrenOf .argument).map fun a =>
    withInitial (joinDeclared a.typeText (a.name.getD "")) a.attrs.initial
  if arguments.isEmpty || arguments == [""] then "void" else String.intercalate ", " arguments

/-- Whether a function is named for the class or structure it is in, with at most one character
before the name. -/
def isConstructorOf (n : Node) : Option Node → Bool
  | some owner =>
    (owner.kind == .classType || owner.kind == .structType) &&
      (n.name == owner.name || (n.name.map fun s => onChars (·.drop 1) s) == owner.name)
  | none => false

def functionSignature (owner : Option Node) (n : Node) : String :=
  let result := match n.child? .result with
    | some result => result.typeText
    | none => if n.isConstructorOf owner then "" else "void"
  joinDeclared result (n.shownName ++ "(" ++ n.argumentList ++ ");")

def variableSignature (n : Node) : String :=
  withInitial (joinDeclared n.typeText n.shownName) n.attrs.initial ++ ";"

/-- The declaration of a name for a type. The name of a function pointer stands in the first pair of
parentheses with a star. -/
def aliasSignature (n : Node) : String :=
  let type := n.typeText
  match breakOn? ['(', '*', ')'] type.toList with
  | some (before, after) =>
    "typedef " ++ String.ofList before ++ "(*" ++ n.shownName ++ ")" ++ String.ofList after ++ ";"
  | none => "typedef " ++ joinDeclared type n.shownName ++ ";"

/-- The declaration of a class, structure or union with its members that are not private. -/
def recordSignature (n : Node) : String :=
  let base := match n.attrs.base with
    | some base => if base.isEmpty then "" else " : " ++ base
    | none => ""
  let members := n.children.filterMap fun c =>
    if c.scope == some "private" then none
    else if c.kind == .var then some ("  " ++ c.variableSignature)
    else if c.kind == .function then some ("  " ++ c.functionSignature (some n))
    else none
  String.intercalate "\n"
    (([n.kind.name ++ " " ++ n.shownName ++ base, "\x7b"] ++ members) ++ ["\x7d;"])

def enumerationSignature (n : Node) : String :=
  let constants := (n.childrenOf .constant).map fun c => "  " ++ c.shownName ++ ","
  String.intercalate "\n" ((["enum " ++ n.shownName, "\x7b"] ++ constants) ++ ["\x7d;"])

end Node

/-- The declaration shown for a node, which is empty for kinds that are not declared. -/
def Located.signature (l : Located) : String :=
  match l.node.kind with
  | .function => l.node.functionSignature l.above.head?
  | .var => l.node.variableSignature
  | .typeAlias => l.node.aliasSignature
  | .classType | .structType | .unionType => l.node.recordSignature
  | .enumType => l.node.enumerationSignature
  | _ => ""

end HeaderDocs
