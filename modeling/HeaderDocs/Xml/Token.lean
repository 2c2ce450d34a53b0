import HeaderDocs.Text.Newline
import HeaderDocs.Text.ReadMany
import HeaderDocs.Text.Substitute
import HeaderDocs.Xml.Element

/-!
# Tokens of a document

The content of a document is a sequence of tags, text and entity references; comments and processing
instructions are passed over. Text is taken as it stands here, with line ends written as line feeds;
what references to entities stand for is decided later.
-/
namespace HeaderDocs.Xml

open HeaderDocs.Text

/-- A piece of an attribute value or of the value of an entity. -/
inductive Piece where
  | literal (c : Char)
  /-- A character that was written as a number. -/
  | numbered (c : Char)
  | entity (name : List Char)
deriving DecidableEq, Repr

inductive Token where
  | startTag (name : QName) (attrs : List (QName × List Piece))
  | endTag (name : QName)
  /-- Text; `plain` if it was written without references and sections. -/
  | text (cs : List Char) (plain : Bool)
  | entity (name : List Char)
deriving DecidableEq, Repr

/-! ## Names, space and references -/

def skipSpace (cs : List Char) : List Char := cs.dropWhile isSpace

/-- Takes white space off the front of a text that starts with some. -/
def readSpace? (cs : List Char) : Option (List Char) :=
  if cs.head?.any isSpace then some (skipSpace cs) else none

/-- Takes a keyword off the front of a text. -/
def readKeyword? (keyword : String) (cs : List Char) : Option (List Char) :=
  keyword.toList.isPrefixOf? cs

def readName? : List Char → Option (List Char × List Char)
  | [] => none
  | c :: cs =>
    if isNameStart c then some (c :: cs.takeWhile isNameChar, cs.dropWhile isNameChar) else none

def readQName? (cs : List Char) : Option (QName × List Char) :=
  match readName? cs with
  | none => none
  | some (first, ':' :: rest) =>
    (readName? rest).map fun (second, rest) =>
      ({ qualifier := some (String.ofList first), name := String.ofList second }, rest)
  | some (first, rest) => some ({ name := String.ofList first }, rest)

/-- The character with a number, if documents may hold it. -/
def charOfNumber? (n : Nat) : Option Char :=
  if n.isValidChar && isChar (Char.ofNat n) then some (Char.ofNat n) else none

/-- The value of a digit in the given base, which is 10 or 16. -/
def digitValue? (base : Nat) (c : Char) : Option Nat :=
  let value :=
    if '0' ≤ c && c ≤ '9' then c.toNat - 48
    else if 'a' ≤ c && c ≤ 'f' then c.toNat - 87
    else if 'A' ≤ c && c ≤ 'F' then c.toNat - 55
    else base
  if value < base then some value else none

def readNumber? (base : Nat) (cs : List Char) : Option (Nat × List Char) :=
  let digits := cs.takeWhile fun c => (digitValue? base c).isSome
  if digits.isEmpty then none
  else
    let value := digits.foldl (fun n c => n * base + (digitValue? base c).getD 0) 0
    some (value, cs.drop digits.length)

/-- Reads the rest of a reference after its ampersand. -/
def readReference? (cs : List Char) : Option (Piece × List Char) :=
  let numbered : Option (Nat × List Char) → Option (Piece × List Char)
    | some (n, ';' :: rest) => (charOfNumber? n).map fun c => (.numbered c, rest)
    | _ => none
  match cs with
  | '#' :: 'x' :: cs => numbered (readNumber? 16 cs)
  | '#' :: cs => numbered (readNumber? 10 cs)
  | _ =>
    match readName? cs with
    | some (name, ';' :: rest) => some (.entity name, rest)
    | _ => none

/-- Takes a text apart into characters and references. -/
def readPiece? : List Char → Option (Step Piece Unit)
  | [] => some (.finish () [])
  | '&' :: cs => (readReference? cs).map fun (piece, rest) => .items [piece] rest
  | c :: cs => some (.items [.literal c] cs)

def pieces? (cs : List Char) : Option (List Piece) :=
  (readMany readPiece? cs).map fun (pieces, _) => pieces

/-- Reads a text in quotes of either kind. -/
def readQuoted? : List Char → Option (List Char × List Char)
  | [] => none
  | quote :: cs =>
    if quote == '"' || quote == '\'' then breakOn? [quote] cs else none

/-! ## Comments and instructions -/

/-- Reads the rest of a comment after its opening. It may not hold two dashes in a row. -/
def readComment? (cs : List Char) : Option (List Char) :=
  match breakOn? ['-', '-'] cs with
  | some (_, '>' :: rest) => some rest
  | _ => none

/-- Reads the rest of a processing instruction after its opening. Its target is not the name that
declares a document, in any case of letters. -/
def readInstruction? (cs : List Char) : Option (List Char) :=
  match readName? cs with
  | none => none
  | some (target, rest) =>
    if target.map Char.toLower == ['x', 'm', 'l'] then none
    else
      match rest with
      | '?' :: '>' :: rest => some rest
      | c :: rest => if isSpace c then (breakOn? ['?', '>'] rest).map (·.2) else none
      | [] => none

/-! ## Tags -/

/-- Reads an attribute after the white space before it. -/
def readAttr? (cs : List Char) : Option ((QName × List Piece) × List Char) :=
  match readQName? cs with
  | none => none
  | some (name, rest) =>
    match skipSpace rest with
    | '=' :: rest =>
      match readQuoted? (skipSpace rest) with
      | some (value, rest) =>
        if value.contains '<' then none
        else (pieces? (normalizeNewlines value)).map fun pieces => ((name, pieces), rest)
      | none => none
    | _ => none

/-- Reads what follows in a start tag: an attribute, or its end, which says whether the element is
empty. -/
def readInTag? (cs : List Char) : Option (Step (QName × List Piece) Bool) :=
  match skipSpace cs with
  | '>' :: rest => some (.finish false rest)
  | '/' :: '>' :: rest => some (.finish true rest)
  | rest =>
    if cs.head?.any isSpace then (readAttr? rest).map fun (attr, rest) => .items [attr] rest
    else none

/-- Reads the rest of a start tag. An empty element is both started and ended. -/
def readStartTag? (cs : List Char) : Option (Step Token Unit) :=
  match readQName? cs with
  | none => none
  | some (name, rest) =>
    (readMany readInTag? rest).map fun (attrs, empty, rest) =>
      .items (.startTag name attrs :: if empty then [.endTag name] else []) rest

def readEndTag? (cs : List Char) : Option (Step Token Unit) :=
  match readQName? cs with
  | none => none
  | some (name, rest) =>
    match skipSpace rest with
    | '>' :: rest => some (.items [.endTag name] rest)
    | _ => none

/-! ## Content -/

def readText? (cs : List Char) : Option (Step Token Unit) :=
  let text := cs.takeWhile fun c => c != '<' && c != '&'
  if contains [']', ']', '>'] text then none
  else some (.items [.text (normalizeNewlines text) true] (cs.drop text.length))

/-- Reads the next token of the content of a document. -/
def readToken? (cs : List Char) : Option (Step Token Unit) :=
  match cs with
  | [] => some (.finish () [])
  | '<' :: '/' :: rest => readEndTag? rest
  | '<' :: '!' :: '-' :: '-' :: rest => (readComment? rest).map (.items [])
  | '<' :: '?' :: rest => (readInstruction? rest).map (.items [])
  | '<' :: '!' :: rest =>
    (("[CDATA[".toList).isPrefixOf? rest).bind fun rest =>
      (breakOn? [']', ']', '>'] rest).map fun (text, rest) =>
        .items [.text (normalizeNewlines text) false] rest
  | '<' :: rest => readStartTag? rest
  | '&' :: rest =>
    (readReference? rest).map fun
      | (.entity name, rest) => .items [.entity name] rest
      | (.literal c, rest) | (.numbered c, rest) => .items [.text [c] false] rest
  | _ => readText? cs

def tokens? (cs : List Char) : Option (List Token) :=
  (readMany readToken? cs).map fun (tokens, _) => tokens

end HeaderDocs.Xml
