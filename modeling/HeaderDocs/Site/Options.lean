import HeaderDocs.Text.Decimal
import HeaderDocs.Text.Quoted

/-!
# Settings and options

Settings are written by the authors of a site, so any value may stand where an option is expected.
`Options.check` takes the options of the reference out of them: an option that is absent or null has
its default, and the first option that has a value of another type is the error. A value that is put
into a text is put there as it is shown.
-/
namespace HeaderDocs.Site

open HeaderDocs.Text

/-- A value in the settings of a site. -/
inductive Setting where
  | null
  | bool (value : Bool)
  | integer (value : Int)
  | decimal (mantissa : Int) (exponent : Nat)
  | text (value : String)
  | list (items : List Setting)
  | table (fields : List (String × Setting))
deriving Inhabited

namespace Setting

def field? (key : String) : Setting → Option Setting
  | table fields => (fields.find? (·.1 == key)).map (·.2)
  | _ => none

def text? : Setting → Option String
  | text value => some value
  | _ => none

/-- The items of a setting that has any: of a list, of a text its characters, of a table its keys.
-/
def items? : Setting → Option (List Setting)
  | list items => some items
  | text value => some (value.toList.map fun c => text c.toString)
  | table fields => some (fields.map fun (key, _) => text key)
  | _ => none

/-- Whether a setting counts as not given: nothing, zero, or empty. -/
def isVoid : Setting → Bool
  | null | bool false | integer 0 | decimal 0 _ | text "" | list [] | table [] => true
  | _ => false

mutual

/-- A setting as it is shown within another: texts are in quotes. -/
def written : Setting → String
  | null => "None"
  | bool true => "True"
  | bool false => "False"
  | integer value => toString value
  | decimal mantissa exponent => decimalText mantissa exponent
  | text value => quoted value
  | list items => "[" ++ String.intercalate ", " (writtenItems items) ++ "]"
  | table fields => "\x7b" ++ String.intercalate ", " (writtenFields fields) ++ "\x7d"

def writtenItems : List Setting → List String
  | [] => []
  | item :: items => item.written :: writtenItems items

def writtenFields : List (String × Setting) → List String
  | [] => []
  | (key, value) :: fields => (quoted key ++ ": " ++ value.written) :: writtenFields fields

end

/-- A setting as it is shown in a text. -/
def shown : Setting → String
  | text value => value
  | setting => setting.written

instance : Coe Setting String := ⟨shown⟩

/-- The key that a setting makes for a table. Lists and tables make none. -/
def key? : Setting → Option String
  | null => some "null"
  | bool value => some (toString value)
  | list _ | table _ => none
  | setting => some setting

end Setting

structure Options where
  sourceRoot : String := ""
  sources : List Setting := []
  extensions : List Setting := [.text ".h"]
  exclude : List Setting := []
  outputDir : String := "api"
  navTitle : String := "API Reference"
  treeFile : String := ""
  headingLevel : Int := 2
  members : Bool := true
  autoLink : Bool := true
  language : String := "c"

namespace Options

abbrev Fields := List (String × Setting)

def setting (fields : Fields) (key : String) : Setting :=
  ((fields.find? (·.1 == key)).map (·.2)).getD .null

def textOption (fields : Fields) (key : String) (default : String) : Except String String :=
  match setting fields key with
  | .null => .ok default
  | .text value => .ok value
  | _ => .error key

def listOption (fields : Fields) (key : String) (default : List Setting) :
    Except String (List Setting) :=
  match setting fields key with
  | .null => .ok default
  | .list items => .ok items
  | _ => .error key

def boolOption (fields : Fields) (key : String) (default : Bool) : Except String Bool :=
  match setting fields key with
  | .null => .ok default
  | .bool value => .ok value
  | _ => .error key

/-- A whole number. A truth value counts as one. -/
def integerOption (fields : Fields) (key : String) (default : Int) : Except String Int :=
  match setting fields key with
  | .null => .ok default
  | .integer value => .ok value
  | .bool value => .ok (if value then 1 else 0)
  | _ => .error key

/-- Takes the options out of settings. The error is the first option with a value of the wrong
type. -/
def check (fields : Fields) : Except String Options := do
  let defaults : Options := {}
  let sourceRoot ← textOption fields "source_root" defaults.sourceRoot
  let sources ← listOption fields "sources" defaults.sources
  let extensions ← listOption fields "extensions" defaults.extensions
  let exclude ← listOption fields "exclude" defaults.exclude
  let outputDir ← textOption fields "output_dir" defaults.outputDir
  let navTitle ← textOption fields "nav_title" defaults.navTitle
  let treeFile ← textOption fields "tree_file" defaults.treeFile
  let headingLevel ← integerOption fields "heading_level" defaults.headingLevel
  let members ← boolOption fields "members" defaults.members
  let autoLink ← boolOption fields "auto_xref" defaults.autoLink
  let language ← textOption fields "language" defaults.language
  return { sourceRoot, sources, extensions, exclude, outputDir, navTitle, treeFile, headingLevel,
           members, autoLink, language }

end Options

end HeaderDocs.Site
