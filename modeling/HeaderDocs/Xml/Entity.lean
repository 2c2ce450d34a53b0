import HeaderDocs.Xml.AttributeList

/-!
# Entities

A reference to an entity stands for a text: one of the five characters that markup uses, or what the
document declares for it. The text of a declared entity may refer to others, but not to itself, so
replacing references ends after as many rounds as there are declarations.

What a document declares about attributes is kept with its entities, since their defaults may refer
to those.
-/
namespace HeaderDocs.Xml

open HeaderDocs.Text

/-- What a document declares about entities and attributes. -/
structure Entities where
  /-- The first declaration of each name: its text, or nothing if that is kept elsewhere. -/
  declared : List (List Char × Option (List Char)) := []
  /-- The attributes that are declared for elements, with their defaults as values. -/
  attributes : List (QName × AttributeDeclaration) := []
  /-- Whether there may be declarations that are not read. -/
  incomplete : Bool := false
  /-- Whether the document says that it needs no declarations from elsewhere. -/
  standalone : Bool := false

namespace Entities

/-- The characters that always have a name. -/
def predefined? (name : List Char) : Option Char :=
  if name == ['l', 't'] then some '<'
  else if name == ['g', 't'] then some '>'
  else if name == ['a', 'm', 'p'] then some '&'
  else if name == ['q', 'u', 'o', 't'] then some '"'
  else if name == ['a', 'p', 'o', 's'] then some '\''
  else none

/-- Adds a declaration, unless the name has one. -/
def declare (name : List Char) (text : Option (List Char)) (es : Entities) : Entities :=
  if es.declared.any (·.1 == name) then es
  else { es with declared := es.declared ++ [(name, text)] }

def find? (es : Entities) (name : List Char) : Option (Option (List Char)) :=
  (es.declared.find? (·.1 == name)).map (·.2)

/-! ## Attribute values -/

/-- White space in an attribute value is written as a space. -/
def valueChar (c : Char) : Char := if isSpace c then ' ' else c

mutual

/-- The value of an attribute, where at most `depth` entities stand inside of each other. A name
that may be declared elsewhere stands for nothing. -/
def value? (es : Entities) : Nat → List Piece → Option (List Char)
  | _, [] => some []
  | depth, .literal c :: pieces => (es.value? depth pieces).map (valueChar c :: ·)
  | depth, .numbered c :: pieces => (es.value? depth pieces).map (c :: ·)
  | depth, .entity name :: pieces =>
    match es.entityValue? depth name with
    | none => none
    | some value => (es.value? depth pieces).map (value ++ ·)

def entityValue? (es : Entities) : Nat → List Char → Option (List Char)
  | depth, name =>
    match predefined? name with
    | some c => some [c]
    | none =>
      match es.find? name, depth with
      | some (some text), depth + 1 =>
        if text.contains '<' then none
        else (pieces? text).bind (es.value? depth)
      | none, _ => if es.incomplete && !es.standalone then some [] else none
      | _, _ => none

end

/-! ## Declared attributes -/

/-- What is declared for an attribute of an element. -/
def attribute? (es : Entities) (element name : QName) : Option AttributeDeclaration :=
  (es.attributes.find? fun (e, d) => e == element && d.name == name).map (·.2)

def attributeValue? (es : Entities) (tokens : Bool) (pieces : List Piece) : Option (List Char) :=
  (es.value? es.declared.length pieces).map fun value => if tokens then tokenized value else value

/-- The value of a default, from the way it is written. -/
def defaultValue? (es : Entities) (tokens : Bool) (written : List Char) : Option (List Char) :=
  if written.contains '<' then none
  else (pieces? (normalizeNewlines written)).bind (es.attributeValue? tokens)

def declaredDefault? (es : Entities) (d : AttributeDeclaration) : Option (Option (List Char)) :=
  match d.default with
  | some written => (es.defaultValue? d.tokens written).map some
  | none => some none

/-- Adds the declaration of an attribute of an element, unless the attribute has one. Its default
has to be well-formed in any case. -/
def declareAttribute? (element : QName) (es : Entities) (d : AttributeDeclaration) :
    Option Entities :=
  (es.declaredDefault? d).map fun default =>
    if (es.attribute? element d.name).isSome then es
    else { es with attributes := es.attributes ++ [(element, { d with default })] }

def declareAttributes? (es : Entities) (element : QName) (declared : List AttributeDeclaration) :
    Option Entities :=
  declared.foldlM (declareAttribute? element) es

/-- The attributes that an element has by default, in addition to those that are given. -/
def defaults (es : Entities) (element : QName) (given : List QName) : List (QName × List Char) :=
  es.attributes.filterMap fun (e, d) =>
    if e == element && !given.contains d.name then d.default.map (d.name, ·) else none

/-! ## Content -/

/-- Whether every element of a token list that is started inside of `depth` others is ended in it,
and no other. -/
def isBalanced : Nat → List Token → Bool
  | depth, [] => depth == 0
  | depth, .startTag _ _ :: tokens => isBalanced (depth + 1) tokens
  | 0, .endTag _ :: _ => false
  | depth + 1, .endTag _ :: tokens => isBalanced depth tokens
  | depth, _ :: tokens => isBalanced depth tokens

mutual

/-- Tokens with the text of entities in place of references, where at most `depth` entities stand
inside of each other. -/
def expand? (es : Entities) : Nat → List Token → Option (List Token)
  | _, [] => some []
  | depth, .entity name :: tokens =>
    match es.entityTokens? depth name with
    | none => none
    | some text => (es.expand? depth tokens).map fun rest => .text [] false :: text ++ rest
  | depth, token :: tokens => (es.expand? depth tokens).map (token :: ·)

def entityTokens? (es : Entities) : Nat → List Char → Option (List Token)
  | depth, name =>
    match predefined? name with
    | some c => some [.text [c] false]
    | none =>
      match es.find? name, depth with
      | some (some text), depth + 1 =>
        match tokens? text with
        | some tokens => if isBalanced 0 tokens then es.expand? depth tokens else none
        | none => none
      | _, _ => none

end

end Entities

end HeaderDocs.Xml
