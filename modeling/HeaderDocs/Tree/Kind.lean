/-!
# Kinds of nodes

What a node of a documentation tree stands for. Every kind has a name, which is also the name of its
element in a saved tree.

* `ofName?_name`: a kind is found again by its name.
-/
namespace HeaderDocs

inductive Kind where
  /-- The whole documentation. -/
  | root
  | nameSpace
  | classType
  | structType
  | unionType
  | enumType
  /-- A constant of an enumeration. -/
  | constant
  /-- A name declared for a type. -/
  | typeAlias
  | function
  | var
  | argument
  /-- What a function returns. -/
  | result
  /-- A written type, whose children are its words and marks. -/
  | typeExpr
  | description
  /-- A word or mark of a written type. -/
  | word
  /-- The text of a description. -/
  | prose
deriving DecidableEq, Repr

namespace Kind

def name : Kind → String
  | root => "apitree"
  | nameSpace => "namespace"
  | classType => "class"
  | structType => "struct"
  | unionType => "union"
  | enumType => "enumeration"
  | constant => "constant"
  | typeAlias => "typedef"
  | function => "function"
  | var => "variable"
  | argument => "argument"
  | result => "returnvalue"
  | typeExpr => "type"
  | description => "description"
  | word => "text"
  | prose => "opaque"

def all : List Kind :=
  [root, nameSpace, classType, structType, unionType, enumType, constant, typeAlias, function,
    var, argument, result, typeExpr, description, word, prose]

def ofName? (s : String) : Option Kind := all.find? fun k => k.name == s

/-- Classes, structures and unions: types whose members are documented with them. -/
def isRecord : Kind → Bool
  | classType | structType | unionType => true
  | _ => false

/-- Kinds that hold text themselves: the pieces of types and descriptions. -/
def isText : Kind → Bool
  | word | prose => true
  | _ => false

theorem ofName?_name (k : Kind) : ofName? k.name = some k := by
  cases k <;> decide

end Kind

end HeaderDocs
