import HeaderDocs.Xml.ContentModel
import HeaderDocs.Xml.Entity

/-!
# What stands before the root element

A document may start with a declaration of itself and of its type. Of the type declaration the
entities and the attributes matter; declarations of elements and notations only have to be
well-formed.
-/
namespace HeaderDocs.Xml

open HeaderDocs.Text

/-! ## The declaration of a document -/

/-- Characters of the values in the declaration of a document. -/
def isDeclarationChar (c : Char) : Bool :=
  isAsciiLetter c || isAsciiDigit c || c == '.' || c == '-' || c == '_'

/-- Reads white space, a keyword, an equals sign and a value. -/
def readSetting? (keyword : String) (cs : List Char) : Option (List Char × List Char) := do
  let cs ← readKeyword? keyword (← readSpace? cs)
  let cs ← readKeyword? "=" (skipSpace cs)
  let (value, cs) ← readQuoted? (skipSpace cs)
  if value.all isDeclarationChar then some (value, cs) else none

/-- Reads the rest of the declaration of a document: its version, and perhaps its encoding and
whether it needs no declarations from elsewhere. -/
def readDeclaration? (cs : List Char) : Option (Bool × List Char) := do
  let (_, cs) ← readSetting? "version" cs
  let cs ← match readSetting? "encoding" cs with
    | some (value, cs) => if value.head?.any isAsciiLetter then some cs else none
    | none => some cs
  let (standalone, cs) ← match readSetting? "standalone" cs with
    | some (value, cs) =>
      if value == ['y', 'e', 's'] then some (true, cs)
      else if value == ['n', 'o'] then some (false, cs)
      else none
    | none => some (false, cs)
  let cs ← readKeyword? "?>" (skipSpace cs)
  return (standalone, cs)

/-! ## Declarations of entities -/

def isPublicIdChar (c : Char) : Bool :=
  isAsciiLetter c || isAsciiDigit c || " \n\r-'()+,./:=?;!*#@$_%".toList.contains c

/-- Reads where something is kept that is not part of the document. -/
def readExternalId? (cs : List Char) : Option (List Char) :=
  match readKeyword? "SYSTEM" cs with
  | some cs => do
    let (_, cs) ← readQuoted? (← readSpace? cs)
    return cs
  | none => do
    let (id, cs) ← readQuoted? (← readSpace? (← readKeyword? "PUBLIC" cs))
    if id.all isPublicIdChar then
      let (_, cs) ← readQuoted? (← readSpace? cs)
      return cs
    else none

/-- The text of an entity. References to characters are replaced when it is declared, references to
entities when it is used. -/
def entityText? (value : List Char) : Option (List Char) :=
  if value.contains '%' then none
  else (pieces? (normalizeNewlines value)).map fun pieces => pieces.flatMap fun
    | .literal c => [c]
    | .numbered c => [c]
    | .entity name => '&' :: name ++ [';']

/-- Reads the value of an entity, or where it is kept, after the name that is declared. -/
def readEntityValue? (parameter : Bool) (cs : List Char) :
    Option (Option (List Char) × List Char) :=
  match readQuoted? cs with
  | some (value, cs) => some (some value, cs)
  | none => do
    let cs ← readExternalId? cs
    let unparsed := do
      let cs ← readSpace? (← readKeyword? "NDATA" (← readSpace? cs))
      let (_, cs) ← readName? cs
      return (none, cs)
    match unparsed with
    | some result => if parameter then none else some result
    | none => return (none, cs)

/-! ## The items of a document type declaration -/

/-- An item of a document type declaration. Values are kept as they are written. -/
inductive Declaration where
  | entity (name : List Char) (value : Option (List Char))
  /-- An entity of the declaration itself. -/
  | parameter (value : Option (List Char))
  | attributes (element : QName) (declared : List AttributeDeclaration)
  /-- Declarations that are kept elsewhere follow. -/
  | elsewhere

/-- Reads the declaration of an entity after its keyword. -/
def readEntity? (cs : List Char) : Option (Step Declaration Unit) := do
  let cs ← readSpace? cs
  let (parameter, cs) ← match cs with
    | '%' :: cs => (readSpace? cs).map (true, ·)
    | cs => some (false, cs)
  let (name, cs) ← readName? cs
  let (value, cs) ← readEntityValue? parameter (← readSpace? cs)
  let cs ← readKeyword? ">" (skipSpace cs)
  return .items [if parameter then .parameter value else .entity name value] cs

/-- Reads the declaration of a notation after its keyword. -/
def readNotation? (cs : List Char) : Option (List Char) := do
  let (_, cs) ← readName? (← readSpace? cs)
  let cs ← readSpace? cs
  let known := do
    let (id, cs) ← readQuoted? (← readSpace? (← readKeyword? "PUBLIC" cs))
    if id.all isPublicIdChar then some cs else none
  let cs ← readExternalId? cs <|> known
  readKeyword? ">" (skipSpace cs)

/-- Reads an item of the part of a document type declaration that is in the document. -/
def readDeclared? (cs : List Char) : Option (Step Declaration Unit) :=
  match cs with
  | ']' :: cs => some (.finish () cs)
  | '<' :: '!' :: '-' :: '-' :: cs => (readComment? cs).map (.items [])
  | '<' :: '?' :: cs => (readInstruction? cs).map (.items [])
  | '%' :: cs =>
    match readName? cs with
    | some (_, ';' :: cs) => some (.items [.elsewhere] cs)
    | _ => none
  | c :: rest =>
    if isSpace c then some (.items [] rest)
    else
      match readKeyword? "<!ENTITY" cs, readKeyword? "<!ATTLIST" cs with
      | some cs, _ => readEntity? cs
      | none, some cs =>
        (readAttributeList? cs).map fun ((element, declared), cs) =>
          .items [.attributes element declared] cs
      | none, none =>
        match readKeyword? "<!ELEMENT" cs with
        | some cs => (readElementDeclaration? cs).map (.items [])
        | none => ((readKeyword? "<!NOTATION" cs).bind readNotation?).map (.items [])
  | [] => none

/-! ## Recording declarations -/

/-- Records an item. The values of entities and the defaults of attributes have to be well-formed.
-/
def recordDeclaration (es : Entities) : Declaration → Option Entities
  | .entity name none => some (es.declare name none)
  | .entity name (some value) => (entityText? value).map fun text => es.declare name (some text)
  | .parameter none => some es
  | .parameter (some value) => (entityText? value).map fun _ => es
  | .attributes element declared => es.declareAttributes? element declared
  | .elsewhere => some { es with incomplete := true }

/-- Records items in order. After a part that is kept elsewhere no more are recorded, unless the
document needs nothing from elsewhere. -/
def recordDeclarations : List Declaration → Entities → Option Entities
  | [], es => some es
  | d :: ds, es =>
    match recordDeclaration es d with
    | none => none
    | some es =>
      match d with
      | .elsewhere => if es.standalone then recordDeclarations ds es else some es
      | _ => recordDeclarations ds es

/-- Reads the rest of a document type declaration. -/
def readDoctype? (standalone : Bool) (cs : List Char) : Option (Entities × List Char) := do
  let (_, cs) ← readQName? (← readSpace? cs)
  let external := (readSpace? cs).bind readExternalId?
  let es : Entities := { standalone, incomplete := external.isSome }
  match skipSpace (external.getD cs) with
  | '>' :: cs => return (es, cs)
  | '[' :: cs =>
    let (declared, _, cs) ← readMany readDeclared? cs
    let cs ← readKeyword? ">" (skipSpace cs)
    let es ← recordDeclarations declared es
    return (es, cs)
  | _ => none

/-! ## The prolog -/

/-- Reads what may stand around a document type declaration. -/
def readMisc? (cs : List Char) : Option (Step Unit Unit) :=
  match cs with
  | '<' :: '!' :: '-' :: '-' :: cs => (readComment? cs).map (.items [])
  | '<' :: '?' :: cs => (readInstruction? cs).map (.items [])
  | c :: rest => if isSpace c then some (.items [] rest) else some (.finish () cs)
  | [] => some (.finish () [])

/-- Reads everything before the root element. -/
def readProlog? (cs : List Char) : Option (Entities × List Char) := do
  let (standalone, cs) ← match readKeyword? "<?xml" cs with
    | some rest => if rest.head?.any isNameChar then some (false, cs) else readDeclaration? rest
    | none => some (false, cs)
  let (_, _, cs) ← readMany readMisc? cs
  match readKeyword? "<!DOCTYPE" cs with
  | some cs => readDoctype? standalone cs
  | none => return ({ standalone }, cs)

end HeaderDocs.Xml
