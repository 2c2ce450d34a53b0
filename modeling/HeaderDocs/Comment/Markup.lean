import HeaderDocs.Text.Space
import HeaderDocs.Text.Substitute

/-!
# Markup inside a description

Descriptions may hold annotations and inline markup, all introduced by an at sign:

* `@private@` hides what it describes;
* `@deprecated@` and `@since 1.2@` say from when on to avoid it or since when it exists;
* `@code x@` and `@link x@` set a word apart.

A description is split at its first blank line into a summary and a discussion.
-/
namespace HeaderDocs.Comment

open HeaderDocs.Text

def privateMarker : String := "@private@"

/-- The annotation shown for a deprecated symbol. -/
def deprecated : String := "DEPRECATED"

def isPrivate (text : String) : Bool := contains privateMarker.toList text.toList

/-! ## Annotations -/

/-- The value of the annotation that starts at this place, if one does. The value of `@since`
reaches up to the next at sign. -/
def annotation? (cs : List Char) : Option String :=
  if "@deprecated@".toList.isPrefixOf cs then some deprecated
  else (("@since ".toList).isPrefixOf? cs).map fun rest =>
    String.ofList (rest.takeWhile (· != '@'))

/-- The value of the first annotation of a text, which is empty if there is none. -/
def annotationFrom : List Char → String
  | [] => ""
  | c :: cs => (annotation? (c :: cs)).getD (annotationFrom cs)

/-- The summary annotation of a description: the marker of deprecated symbols, or the value of
`@since`. -/
def annotation (text : String) : String := annotationFrom text.toList

/-! ## Inline markup -/

/-- The length of a value that reaches up to the next at sign, that sign included if there is one. -/
def valueLength : List Char → Nat
  | [] => 0
  | c :: cs => if c == '@' then 1 else valueLength cs + 1

def annotationRule : Rule := fun _ cs =>
  if "@deprecated@".toList.isPrefixOf cs then some ([], 12)
  else (("@since ".toList).isPrefixOf? cs).map fun rest => ([], 7 + valueLength rest)

/-- Sets the value of a markup word in backquotes. At least one white space character separates the
word from its value. -/
def codeRule (word : String) : Rule := fun _ cs =>
  match word.toList.isPrefixOf? cs with
  | some (c :: rest) =>
    if isSpace c then
      let value := trim (rest.takeWhile (· != '@'))
      some ('\x60' :: value ++ ['\x60'], word.length + 1 + valueLength rest)
    else none
  | _ => none

/-- The description as it is shown: without annotations, and with inline markup written out. -/
def stripMarkup (text : String) : String :=
  let cs := substitute annotationRule text.toList
  let cs := substitute (codeRule "@code") cs
  let cs := substitute (codeRule "@link") cs
  String.ofList (trim cs)

/-! ## Summary and discussion -/

/-- The part of a description up to its first blank line, and the part after it. -/
def splitSummary (text : String) : String × String :=
  match breakOn? ['\n', '\n'] text.toList with
  | some (summary, discussion) =>
    (String.ofList (trim summary), String.ofList (trim discussion))
  | none => (stripped text, "")

end HeaderDocs.Comment
