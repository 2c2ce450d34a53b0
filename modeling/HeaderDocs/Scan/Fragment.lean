import HeaderDocs.Text.Letter
import HeaderDocs.Tree.Node

/-!
# Fragments

The words and marks of a declaration, in the order they are read. Each fragment knows whether a
space separates it from the one before when the declaration is written out again.
-/
namespace HeaderDocs.Scan

open HeaderDocs.Text

/-- A word, a mark or a literal of a declaration. -/
structure Fragment where
  text : String
  spaced : Bool
deriving DecidableEq, Repr

namespace Fragment

def toNode (f : Fragment) : Node := Node.word f.text f.spaced

/-- Whether the text of a fragment starts with the character. -/
def startsWith (f : Fragment) (c : Char) : Bool := f.text.toList.head? == some c

/-- Whether a fragment starts as an identifier does. -/
def isWord (f : Fragment) : Bool :=
  match f.text.toList with
  | [] => false
  | c :: _ => isLetter c || c == '_'

/-- Whether a fragment ends as an identifier or a number does. -/
def endsWord (f : Fragment) : Bool :=
  match f.text.toList.getLast? with
  | some c => isWordChar c
  | none => false

/-- Whether a fragment is a sign that stands close to what comes before, as in `= -1`. -/
def isSign (f : Fragment) : Bool := (f.text == "-" || f.text == "+") && !f.spaced

end Fragment

/-- The fragments of a declaration that has not ended. -/
abbrev Run := List Fragment

namespace Run

def texts (run : Run) : List String := run.map (·.text)

/-- The run as text. -/
def text (run : Run) : String := Node.joinText (run.map Fragment.toNode)

def toType (run : Run) : Node := { kind := .typeExpr, children := run.map Fragment.toNode }

/-- The run with nothing before its first fragment. -/
def closeUp : Run → Run
  | [] => []
  | f :: fs => { f with spaced := false } :: fs

def push (run : Run) (text : String) (spaced : Bool) : Run := run ++ [⟨text, spaced⟩]

/-- Appends a word. It is separated from the fragment before unless that opens a parenthesis, is a
star, or is a sign. -/
def pushWord (run : Run) (word : String) : Run :=
  run.push word <|
    match run.getLast? with
    | some last => !(last.startsWith '(' || last.startsWith '*' || last.isSign)
    | none => false

/-- Appends a mark, which is separated only from a word before it. -/
def pushMark (run : Run) (mark : String) : Run :=
  run.push mark <|
    match run.getLast? with
    | some last => last.endsWord
    | none => false

/-- Whether a declaration has the form `type (*name)(…)`. -/
def isFunctionPointer (run : Run) : Bool :=
  let words := run.texts
  words.getLast? == some ")" &&
    match words.findIdx? (· == "(") with
    | some i => 0 < i && words[i + 1]? == some "*"
    | none => false

@[simp] theorem texts_closeUp (run : Run) : texts run.closeUp = texts run := by
  cases run <;> rfl

end Run

end HeaderDocs.Scan
