import HeaderDocs.Xml.Doctype

/-!
# Reading a document

`parse?` reads a document into its root element, and answers nothing if the document is not
well-formed. Prefixes are replaced by the namespaces they stand for, so that an unqualified name in
the result is a name that is in no namespace.
-/
namespace HeaderDocs.Xml

open HeaderDocs.Text

/-! ## Namespaces -/

/-- The namespaces that prefixes stand for, innermost first; no prefix is the namespace of elements
without one. -/
abbrev Bindings := List (Option String × String)

def xmlNamespace : String := "http://www.w3.org/XML/1998/namespace"

def xmlnsNamespace : String := "http://www.w3.org/2000/xmlns/"

def bindingOf? (name : QName) : Option (Option String) :=
  if name.qualifier == some "xmlns" then some (some name.name)
  else if name.qualifier.isNone && name.name == "xmlns" then some none
  else none

/-- Whether a prefix may stand for a namespace. -/
def mayBind (name : Option String) (space : String) : Bool :=
  name != some "xmlns" && space != xmlnsNamespace && !(name.isSome && space.isEmpty) &&
    (name == some "xml") == (space == xmlNamespace) && !space.toList.contains '\x7d'

/-- Adds the bindings among the attributes of an element. -/
def bind? (bindings : Bindings) : List (QName × String) → Option Bindings
  | [] => some bindings
  | (name, value) :: attrs =>
    match bindingOf? name with
    | none => bind? bindings attrs
    | some qualifier =>
      if mayBind qualifier value then bind? ((qualifier, value) :: bindings) attrs else none

def resolve? (bindings : Bindings) (qualifier : String) : Option String :=
  if qualifier == "xml" then some xmlNamespace
  else (bindings.find? (·.1 == some qualifier)).map (·.2)

/-- The name of an element. Without a prefix it is in the namespace that is bound to none, if that
is not empty. -/
def elementName? (bindings : Bindings) (name : QName) : Option QName :=
  match name.qualifier with
  | some qualifier =>
    (resolve? bindings qualifier).map fun space => { name with qualifier := space }
  | none =>
    match bindings.find? (·.1 == none) with
    | some (_, space) => if space.isEmpty then some name else some { name with qualifier := space }
    | none => some name

/-- The name of an attribute. Without a prefix it is in no namespace. -/
def attrName? (bindings : Bindings) (name : QName) : Option QName :=
  match name.qualifier with
  | some qualifier =>
    (resolve? bindings qualifier).map fun space => { name with qualifier := space }
  | none => some name

/-! ## Elements from tokens -/

/-- An element whose end has not been read. Text and children are kept backwards. -/
structure OpenElement where
  /-- The name as it is written. -/
  written : QName
  name : QName
  attrs : List (QName × String)
  bindings : Bindings
  text : List Char := []
  children : List Element := []

/-- The elements that are open, innermost first, and the root element once it has ended. -/
structure Builder where
  open? : List OpenElement := []
  root : Option Element := none

def hasDuplicates : List QName → Bool
  | [] => false
  | name :: names => names.contains name || hasDuplicates names

/-- An attribute that is given in a start tag, with its value as text. -/
def givenAttr? (es : Entities) (element : QName) (attr : QName × List Piece) :
    Option (QName × List Char) :=
  let tokens := (es.attribute? element attr.1).any (·.tokens)
  (es.attributeValue? tokens attr.2).map (attr.1, ·)

/-- An attribute with its name in full. -/
def resolvedAttr? (bindings : Bindings) (attr : QName × String) : Option (QName × String) :=
  (attrName? bindings attr.1).map (·, attr.2)

def start? (es : Entities) (name : QName) (attrs : List (QName × List Piece)) (b : Builder) :
    Option Builder := do
  if b.open?.isEmpty && b.root.isSome then none
  else
    let given ← attrs.mapM (givenAttr? es name)
    let written := (given ++ es.defaults name (given.map (·.1))).map fun attr =>
      (attr.1, String.ofList attr.2)
    let bindings ← bind? ((b.open?.head?.map (·.bindings)).getD []) written
    let named ← (written.filter (bindingOf? ·.1 |>.isNone)).mapM (resolvedAttr? bindings)
    let full ← elementName? bindings name
    if hasDuplicates (written.map (·.1)) || hasDuplicates (named.map (·.1)) then none
    else
      let element : OpenElement := { written := name, name := full, attrs := named, bindings }
      return { b with open? := element :: b.open? }

def OpenElement.toElement (p : OpenElement) : Element :=
  { name := p.name, attrs := p.attrs, text := String.ofList p.text.reverse
    children := p.children.reverse }

def end? (name : QName) (b : Builder) : Option Builder :=
  match b.open? with
  | [] => none
  | p :: outer =>
    if p.written != name then none
    else
      match outer with
      | [] => some { open? := [], root := some p.toElement }
      | q :: outer =>
        let q := { q with children := p.toElement :: q.children }
        some { b with open? := q :: outer }

/-- Adds text, of which only the one before the first child is kept. Around the root element there
is only white space. -/
def addText? (cs : List Char) (plain : Bool) (b : Builder) : Option Builder :=
  match b.open? with
  | [] => if plain && cs.all isSpace then some b else none
  | p :: outer =>
    if p.children.isEmpty then
      some { b with open? := { p with text := cs.reverse ++ p.text } :: outer }
    else some b

def build? (es : Entities) : List Token → Builder → Option Element
  | [], b => if b.open?.isEmpty then b.root else none
  | token :: tokens, b =>
    let next := match token with
      | .startTag name attrs => start? es name attrs b
      | .endTag name => end? name b
      | .text cs plain => addText? cs plain b
      | .entity _ => none
    match next with
    | some b => build? es tokens b
    | none => none

/-! ## Documents -/

/-- A document without the byte order mark that may stand before it. -/
def withoutMark : List Char → List Char
  | '\uFEFF' :: cs => cs
  | cs => cs

def parse? (document : String) : Option Element := do
  let cs := withoutMark document.toList
  if cs.all isChar then
    let (es, cs) ← readProlog? cs
    let tokens ← es.expand? es.declared.length (← tokens? cs)
    build? es tokens {}
  else none

end HeaderDocs.Xml
