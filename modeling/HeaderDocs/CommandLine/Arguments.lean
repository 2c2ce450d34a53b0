import HeaderDocs.Text.Letter
import HeaderDocs.Text.Substitute

/-!
# Command line arguments

`XMLFILE SOURCE… [--ext EXT…] [--markdown OUT] [--title TITLE]`

Options may be shortened as long as they are not ambiguous, and their value may follow an equals
sign. After a lone double dash every argument stands for itself. Options may stand anywhere, but the
sources have to stand together.
-/
namespace HeaderDocs.CommandLine

open HeaderDocs.Text

inductive OptionName where
  | help
  | extensions
  | markdown
  | title
deriving DecidableEq, Repr

namespace OptionName

/-- How options are written in full. -/
def spellings : List (String × OptionName) :=
  [("-h", help), ("--help", help), ("--ext", extensions), ("--markdown", markdown),
    ("--title", title)]

end OptionName

inductive Argument where
  | plain (text : String)
  | endOfOptions
  /-- An option with the value that is attached to it. -/
  | option (name : OptionName) (value : Option String)
  | unknownOption
deriving DecidableEq, Repr

inductive ArgumentError where
  /-- They do not follow the usage. -/
  | usage
  /-- A lone double dash was given as the value of an option. -/
  | noValue
deriving DecidableEq, Repr

structure Request where
  xmlFile : String
  sources : List String
  extensions : List String := [".h", ".hpp", ".c", ".cpp", ".cxx", ".cc"]
  markdown : Option String := none
  title : String := "API Reference"
deriving DecidableEq, Repr

/-! ## Telling arguments apart -/

/-- Splits an argument at its first equals sign. -/
def splitValue (text : String) : String × Option String :=
  match breakOn? ['='] text.toList with
  | some (name, value) => (String.ofList name, some (String.ofList value))
  | none => (text, none)

/-- The options that an argument may be short for, with the value attached to it. -/
def candidates (text : String) : List Argument :=
  match text.toList with
  | '-' :: '-' :: _ =>
    let (name, value) := splitValue text
    OptionName.spellings.filterMap fun (spelling, option) =>
      if name.toList.isPrefixOf spelling.toList then some (.option option value) else none
  | '-' :: c :: rest =>
    OptionName.spellings.filterMap fun (spelling, option) =>
      if spelling.toList == ['-', c] then some (.option option (some (String.ofList rest)))
      else if text.toList.isPrefixOf spelling.toList then some (.option option none)
      else none
  | _ => []

def isNegativeNumber (text : String) : Bool :=
  let isDecimal (c : Char) := (decimalValue? c).isSome
  match text.toList with
  | '-' :: cs =>
    let rest := cs.dropWhile isDecimal
    match rest with
    | [] => !cs.isEmpty
    | '.' :: fraction => !fraction.isEmpty && fraction.all isDecimal
    | _ => false
  | _ => false

def classify (text : String) : Except ArgumentError Argument :=
  if text.toList.head? != some '-' || text == "-" then .ok (.plain text)
  else
    match OptionName.spellings.find? (·.1 == text) with
    | some (_, option) => .ok (.option option none)
    | none =>
      let (name, value) := splitValue text
      match if value.isSome then OptionName.spellings.find? (·.1 == name) else none with
      | some (_, option) => .ok (.option option value)
      | none =>
        match candidates text with
        | [option] => .ok option
        | [] =>
          if isNegativeNumber text || text.toList.contains ' ' then .ok (.plain text)
          else .ok .unknownOption
        | _ => .error .usage

def classifyAll : List String → Except ArgumentError (List Argument)
  | [] => .ok []
  | text :: texts =>
    if text == "--" then .ok (.endOfOptions :: texts.map .plain)
    else
      match classify text with
      | .error e => .error e
      | .ok argument => (classifyAll texts).map (argument :: ·)

/-! ## Using arguments -/

/-- The arguments before the first option, and those from it on. -/
def splitPlain : List Argument → List Argument × List Argument
  | [] => ([], [])
  | .option name value :: rest => ([], .option name value :: rest)
  | .unknownOption :: rest => ([], .unknownOption :: rest)
  | argument :: rest => (argument :: (splitPlain rest).1, (splitPlain rest).2)

def Argument.text : Argument → String
  | plain text => text
  | _ => "--"

/-- The texts of arguments. The first double dash among them only marks the end of options. -/
def texts (arguments : List Argument) : List String := (arguments.map Argument.text).erase "--"

structure Found where
  xmlFile : Option String := none
  sources : Option (List String) := none
  extensions : Option (List String) := none
  markdown : Option String := none
  title : Option String := none
  /-- Whether some argument has no use. -/
  surplus : Bool := false

def isPlain : Argument → Bool
  | .plain _ => true
  | _ => false

/-- The arguments up to the first plain one, and a mark for the end of options right after it. -/
def takeFirst : List Argument → List Argument
  | .plain text :: .endOfOptions :: _ => [.plain text, .endOfOptions]
  | .plain text :: _ => [.plain text]
  | argument :: rest => argument :: takeFirst rest
  | [] => []

/-- Uses arguments that stand next to each other, as the file to update and the sources. -/
def usePlain (arguments : List Argument) (found : Found) : Found :=
  let count := (arguments.filter isPlain).length
  if count == 0 then { found with surplus := found.surplus || !arguments.isEmpty }
  else
    match found.xmlFile, found.sources with
    | none, _ =>
      let first := takeFirst arguments
      let xmlFile := (texts first).head?
      if count == 1 then { found with xmlFile }
      else { found with xmlFile, sources := some (texts (arguments.drop first.length)) }
    | some _, none => { found with sources := some (texts arguments) }
    | some _, some _ => { found with surplus := true }

def useOption (name : OptionName) (values : List String) (found : Found) :
    Except ArgumentError Found :=
  let values := values.erase "--"
  match name, values with
  | .extensions, _ => .ok { found with extensions := some values }
  | .markdown, value :: _ => .ok { found with markdown := some value }
  | .title, value :: _ => .ok { found with title := some value }
  | .help, _ => .error .usage
  | _, [] => .error .noValue

/-- The plain arguments that an option takes for its values, if there are enough. -/
def valuesFor (name : OptionName) (arguments : List Argument) : Option (List Argument) :=
  let values := arguments.takeWhile isPlain
  if values.isEmpty || name == .help then none
  else some (if name == .extensions then values else values.take 1)

/-- Uses all arguments, at most `count` options among them. -/
def useAll : (count : Nat) → List Argument → Found → Except ArgumentError Found
  | 0, arguments, found => .ok (usePlain arguments found)
  | count + 1, arguments, found =>
    let (plain, rest) := splitPlain arguments
    let found := usePlain plain found
    match rest with
    | .option name (some value) :: rest =>
      match useOption name [value] found with
      | .error e => .error e
      | .ok found => useAll count rest found
    | .option name none :: rest =>
      match valuesFor name rest with
      | none => .error .usage
      | some values =>
        match useOption name (values.map Argument.text) found with
        | .error e => .error e
        | .ok found => useAll count (rest.drop values.length) found
    | .unknownOption :: rest => useAll count rest { found with surplus := true }
    | _ => .ok found

def parse (arguments : List String) : Except ArgumentError Request :=
  match classifyAll arguments with
  | .error e => .error e
  | .ok classified =>
    match useAll classified.length classified {} with
    | .error e => .error e
    | .ok found =>
      match found.xmlFile, found.sources with
      | some xmlFile, some sources =>
        if found.surplus then .error .usage
        else
          let request : Request := { xmlFile, sources, markdown := found.markdown }
          .ok { request with
            extensions := found.extensions.getD request.extensions
            title := found.title.getD request.title }
      | _, _ => .error .usage

end HeaderDocs.CommandLine
