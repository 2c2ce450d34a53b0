import HeaderDocs.Xml.Character

/-!
# Elements and how they are written

An element has a name, attributes in order, the text before its first child, and children. `render`
writes an element over several lines, indented by two spaces for each level; an element without text
and children is written as an empty tag.
-/
namespace HeaderDocs.Xml

/-- A name with its qualifier: a prefix in a document that is being read, the namespace it stands
for afterwards. -/
structure QName where
  qualifier : Option String := none
  name : String
deriving DecidableEq, Repr

structure Element where
  name : QName
  attrs : List (QName × String) := []
  /-- The text before the first child. -/
  text : String := ""
  children : List Element := []
deriving Repr

/-! ## Escapes -/

def escapeTextChar : Char → String
  | '&' => "&amp;"
  | '<' => "&lt;"
  | '>' => "&gt;"
  | c => c.toString

def escapeText (s : String) : String := s.foldl (fun acc c => acc ++ escapeTextChar c) ""

/-- In an attribute, line ends and tabs are written as references: a reader takes them for spaces
otherwise. -/
def escapeAttrChar : Char → String
  | '"' => "&quot;"
  | '\r' => "&#13;"
  | '\n' => "&#10;"
  | '\t' => "&#09;"
  | c => escapeTextChar c

def escapeAttr (s : String) : String := s.foldl (fun acc c => acc ++ escapeAttrChar c) ""

/-! ## Writing -/

/-- A line end and the indentation of a level. -/
def newline (level : Nat) : String := "\n" ++ String.ofList (List.replicate (2 * level) ' ')

def renderAttr (attr : QName × String) : String :=
  " " ++ attr.1.name ++ "=\"" ++ escapeAttr attr.2 ++ "\""

mutual

/-- Writes an element that stands at a level. -/
def Element.render (level : Nat) : Element → String
  | ⟨name, attrs, text, children⟩ =>
    let tag := "<" ++ name.name ++ String.join (attrs.map renderAttr)
    let close := "</" ++ name.name ++ ">"
    match children with
    | [] => if text.isEmpty then tag ++ " />" else tag ++ ">" ++ escapeText text ++ close
    | child :: children =>
      tag ++ ">" ++ renderAll (level + 1) (child :: children) ++ newline level ++ close

/-- Writes elements on lines of their own. -/
def renderAll (level : Nat) : List Element → String
  | [] => ""
  | e :: es => newline level ++ e.render level ++ renderAll level es

end

def Element.toDocument (e : Element) : String :=
  "<?xml version=\"1.0\" encoding=\"UTF-8\"?>\n" ++ e.render 0 ++ "\n"

end HeaderDocs.Xml
