import HeaderDocs.Text.Space
import HeaderDocs.Xml.Token

/-!
# Lists of attributes

A document may declare the attributes of an element. Two things follow for elements of that name: an
attribute of any type but `CDATA` is a list of tokens, so that only single spaces stand in its
value, and an attribute with a default has it where it is not given.
-/
namespace HeaderDocs.Xml

open HeaderDocs.Text

/-- A declared attribute. The default is kept as it is written. -/
structure AttributeDeclaration where
  name : QName
  /-- Whether the value is a list of tokens. -/
  tokens : Bool
  default : Option (List Char)
deriving DecidableEq, Repr

/-- A value with only single spaces between its tokens. -/
def tokenized (value : List Char) : List Char :=
  List.intercalate [' '] ((splitWhere (· == ' ') value).filter (!·.isEmpty))

/-! ## Types -/

/-- The types of attributes that are named by a word. -/
def attributeTypes : List String :=
  ["CDATA", "ID", "IDREF", "IDREFS", "ENTITY", "ENTITIES", "NMTOKEN", "NMTOKENS"]

/-- Reads a group of alternatives, which are separated by bars, after its opening. -/
def readAlternatives? (allowed : List Char → Bool) (cs : List Char) : Option (List Char) := do
  let (group, cs) ← breakOn? [')'] cs
  let words := (splitWhere (· == '|') group).map fun word => dropEndWhile isSpace (skipSpace word)
  if words.all allowed then some cs else none

/-- Whether a text is a name without a colon. -/
def isName (cs : List Char) : Bool := (readName? cs).any (·.2.isEmpty)

/-- Whether a text is made of characters of names and colons only. -/
def isNameToken (cs : List Char) : Bool := !cs.isEmpty && cs.all fun c => isNameChar c || c == ':'

/-- Reads the type of an attribute, and answers whether values are lists of tokens. -/
def readAttributeType? (cs : List Char) : Option (Bool × List Char) :=
  match cs with
  | '(' :: cs => (readAlternatives? isNameToken cs).map (true, ·)
  | cs => do
    let (word, cs) ← readName? cs
    if word == "NOTATION".toList then
      match ← readSpace? cs with
      | '(' :: cs => (readAlternatives? isName cs).map (true, ·)
      | _ => none
    else if attributeTypes.contains (String.ofList word) then
      some (word != "CDATA".toList, cs)
    else none

/-! ## Declarations -/

/-- Reads what a declaration says about the value where it is not given. -/
def readDefault? (cs : List Char) : Option (Option (List Char) × List Char) :=
  match cs with
  | '#' :: cs => do
    let (word, cs) ← readName? cs
    if word == "FIXED".toList then
      let (value, cs) ← readQuoted? (← readSpace? cs)
      return (some value, cs)
    else if word == "IMPLIED".toList || word == "REQUIRED".toList then return (none, cs)
    else none
  | cs => (readQuoted? cs).map fun (value, cs) => (some value, cs)

def readAttributeDeclaration? (cs : List Char) : Option (Step AttributeDeclaration Unit) :=
  match skipSpace cs with
  | '>' :: cs => some (.finish () cs)
  | _ => do
    let (name, cs) ← readQName? (← readSpace? cs)
    let (tokens, cs) ← readAttributeType? (← readSpace? cs)
    let (default, cs) ← readDefault? (← readSpace? cs)
    return .items [{ name, tokens, default }] cs

/-- Reads the attributes of an element after the keyword. -/
def readAttributeList? (cs : List Char) :
    Option ((QName × List AttributeDeclaration) × List Char) := do
  let (element, cs) ← readQName? (← readSpace? cs)
  let (declared, _, cs) ← readMany readAttributeDeclaration? cs
  return ((element, declared), cs)

end HeaderDocs.Xml
