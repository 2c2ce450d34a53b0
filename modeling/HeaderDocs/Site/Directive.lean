import HeaderDocs.Text.Letter
import HeaderDocs.Text.Space
import HeaderDocs.Text.Substitute
import HeaderDocs.Tree.Kind

/-!
# Directives

A page asks for parts of the reference by directives. A directive stands on a line of its own after
three colons, and its options follow on lines that are indented further, each with its name between
colons. `directiveAt?` finds one in a page, with its length, and `replaceAll` puts texts in the
place of all of them.
-/
namespace HeaderDocs.Site

open HeaderDocs.Text

inductive DirectiveKind where
  /-- All sections. -/
  | document
  /-- A single symbol of the given kind. -/
  | symbol (kind : Kind)
deriving DecidableEq, Repr

/-- A directive as it is written. -/
structure Directive where
  word : String
  kind : DirectiveKind
  /-- The options in order; of two with one name the later holds. -/
  options : List (String × String)
deriving DecidableEq, Repr

namespace Directive

def kinds : List (String × DirectiveKind) :=
  [("autodoc", .document), ("autofunction", .symbol .function), ("autostruct", .symbol .structType),
    ("autoclass", .symbol .classType), ("autounion", .symbol .unionType),
    ("autoenum", .symbol .enumType), ("autotype", .symbol .typeAlias), ("autovar", .symbol .var)]

def option? (d : Directive) (name : String) : Option String :=
  (d.options.reverse.find? (·.1 == name)).map (·.2)

def isBlank (c : Char) : Bool := c == ' ' || c == '\t'

/-! ## Option lines -/

/-- The length of an option line at the front of a text, with its line end: more blanks than the
directive has before it, a name between colons, and anything else. -/
def optionLine? (indent cs : List Char) : Option Nat := do
  let rest ← indent.isPrefixOf? cs
  let blanks := rest.takeWhile isBlank
  if blanks.isEmpty then none
  else
    let rest ← [':'].isPrefixOf? (rest.drop blanks.length)
    let name := rest.takeWhile isWordChar
    if name.isEmpty then none
    else
      let rest ← [':'].isPrefixOf? (rest.drop name.length)
      let (line, _) ← breakOn? ['\n'] rest
      return indent.length + blanks.length + name.length + 2 + line.length + 1

/-- The length of the option lines at the front of a text, of which `skip` characters belong to the
line before. -/
def bodyLength (indent : List Char) : (skip : Nat) → List Char → Nat
  | _, [] => 0
  | skip + 1, _ :: cs => bodyLength indent skip cs + 1
  | 0, c :: cs =>
    match optionLine? indent (c :: cs) with
    | some length => bodyLength indent (length - 1) cs + 1
    | none => 0

/-! ## Options -/

/-- The value of an option, from the text after its name, and how much of the text it takes. Blank
lines are passed over, so that the value may be what the next line holds. Where only white space
follows, the value is empty if that does not end the line at once. -/
def optionValue? (cs : List Char) : Option (List Char × Nat) :=
  let space := cs.takeWhile isSpace
  let start :=
    if space.length < cs.length then some space.length
    else
      -- the last white space that can be a value
      let after := space.reverse.takeWhile (· == '\n')
      if after.length < space.length then some (space.length - after.length - 1) else none
  start.map fun start =>
    let value := (cs.drop start).takeWhile (· != '\n')
    (trim value, start + value.length)

/-- The option at the start of a line, and the number of characters that it takes. -/
def optionAt? (cs : List Char) : Option ((String × String) × Nat) := do
  let space := cs.takeWhile isSpace
  if space.isEmpty then none
  else
    let rest ← [':'].isPrefixOf? (cs.drop space.length)
    let name := rest.takeWhile isWordChar
    if name.isEmpty then none
    else
      let rest ← [':'].isPrefixOf? (rest.drop name.length)
      let (value, length) ← optionValue? rest
      return ((String.ofList name, String.ofList value), space.length + name.length + 2 + length)

def optionsFrom : (lineStart : Bool) → (skip : Nat) → List Char → List (String × String)
  | _, _, [] => []
  | _, skip + 1, c :: cs => optionsFrom (c == '\n') skip cs
  | lineStart, 0, c :: cs =>
    match if lineStart then optionAt? (c :: cs) else none with
    | some (option, length) => option :: optionsFrom (c == '\n') (length - 1) cs
    | none => optionsFrom (c == '\n') 0 cs

/-! ## Directives in a page -/

/-- The directive at the start of a line, and its length. Blank lines may stand between it and its
options. -/
def directiveAt? (cs : List Char) : Option (Directive × Nat) := do
  let indent := cs.takeWhile isBlank
  let rest ← ":::".toList.isPrefixOf? (cs.drop indent.length)
  let blanks := rest.takeWhile isBlank
  if blanks.isEmpty then none
  else
    let rest ← "apitree:".toList.isPrefixOf? (rest.drop blanks.length)
    let (word, kind) ← kinds.find? fun (word, _) => word.toList.isPrefixOf rest
    let rest := rest.drop word.length
    let space := rest.takeWhile isSpace
    let space := (space.reverse.dropWhile (· != '\n')).reverse
    if space.isEmpty then none
    else
      let rest := rest.drop space.length
      let length := bodyLength indent 0 rest
      let options := optionsFrom true 0 (rest.take length)
      return ({ word, kind, options },
        indent.length + 3 + blanks.length + 8 + word.length + space.length + length)

def replaceAll (text : Directive → List Char) (cs : List Char) : List Char :=
  substitute (fun before cs =>
    if before.all (· == '\n') then (directiveAt? cs).map fun (d, length) => (text d, length)
    else none) cs

end Directive

end HeaderDocs.Site
