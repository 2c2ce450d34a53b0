import HeaderDocs.Xml.Token

/-!
# Content models

A document may declare what an element contains: nothing, anything, text mixed with elements of
given names, or elements in groups. Nothing is checked against a model, but a model that is not
well-formed makes the document so.
-/
namespace HeaderDocs.Xml

open HeaderDocs.Text

inductive ModelToken where
  | open
  /-- The end of a group, with the mark that says how often the group may stand. -/
  | close (repeats : Option Char)
  | word (name : QName) (repeats : Option Char)
  | text
  /-- What stands between the items of a group: a comma or a bar. -/
  | separator (mark : Char)
deriving DecidableEq, Repr

namespace ModelToken

/-- Takes the mark that says how often something may stand off the front of a text. -/
def readRepeats (cs : List Char) : Option Char × List Char :=
  match cs with
  | '?' :: cs => (some '?', cs)
  | '*' :: cs => (some '*', cs)
  | '+' :: cs => (some '+', cs)
  | cs => (none, cs)

def read? (cs : List Char) : Option (Step ModelToken Unit) :=
  match cs with
  | [] => none
  | '>' :: rest => some (.finish () rest)
  | '(' :: rest => some (.items [.open] rest)
  | ')' :: rest =>
    let (repeats, rest) := readRepeats rest
    some (.items [.close repeats] rest)
  | '#' :: rest =>
    match readName? rest with
    | some (keyword, rest) =>
      if keyword == "PCDATA".toList then some (.items [.text] rest) else none
    | none => none
  | c :: rest =>
    if isSpace c then some (.items [] rest)
    else if c == ',' || c == '|' then some (.items [.separator c] rest)
    else
      (readQName? cs).map fun (name, rest) =>
        let (repeats, rest) := readRepeats rest
        .items [.word name repeats] rest

end ModelToken

/-- Whether names follow in a mixed model, each after a bar, up to the end of the model. -/
def isMixedRest : List ModelToken → Bool
  | [.close repeats] => repeats == some '*'
  | .separator '|' :: .word _ none :: tokens => isMixedRest tokens
  | _ => false

/-- Whether a model allows text, perhaps mixed with elements. -/
def isMixed : List ModelToken → Bool
  | [.open, .text, .close repeats] => repeats.all (· == '*')
  | .open :: .text :: tokens => isMixedRest tokens
  | _ => false

/-- Whether groups of elements are well-formed up to the end of the model, with the separators of
the groups that are open, innermost first. All separators of a group are the same. An item is due at
the start of a group and after each separator. -/
def isGroups : (due : Bool) → List (Option Char) → List ModelToken → Bool
  | true, open_, .open :: tokens => isGroups true (none :: open_) tokens
  | true, group :: open_, .word _ _ :: tokens => isGroups false (group :: open_) tokens
  | false, _ :: open_, .close _ :: tokens =>
    if open_.isEmpty then tokens.isEmpty else isGroups false open_ tokens
  | false, group :: open_, .separator mark :: tokens =>
    group.all (· == mark) && isGroups true (some mark :: open_) tokens
  | _, _, _ => false

def isContentModel (tokens : List ModelToken) : Bool :=
  tokens == [.word { name := "EMPTY" } none] || tokens == [.word { name := "ANY" } none] ||
    isMixed tokens || isGroups true [] tokens

def readElementDeclaration? (cs : List Char) : Option (List Char) := do
  let (_, cs) ← readQName? (← readSpace? cs)
  let (tokens, _, cs) ← readMany ModelToken.read? (← readSpace? cs)
  if isContentModel tokens then some cs else none

end HeaderDocs.Xml
