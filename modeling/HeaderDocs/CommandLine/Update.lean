import HeaderDocs.CommandLine.Arguments
import HeaderDocs.Files.Sources
import HeaderDocs.Files.Trees
import HeaderDocs.Reference.Section

/-!
# Updating a saved tree

The command loads a saved tree, or starts a new one, scans sources into it and saves it again; on
request it also writes the whole reference as one page. It works on a store of files and answers
with the store as it is afterwards, what to print, and how it ended.
-/
namespace HeaderDocs.CommandLine

inductive Ending where
  | done
  /-- The arguments do not follow the usage. -/
  | usage
  /-- Something failed, and it was reported. -/
  | failed
  /-- A lone double dash was given as the value of an option. -/
  | noValue
  /-- The file to update is not UTF-8. -/
  | notText
deriving DecidableEq, Repr

structure Result where
  store : Store
  output : String := ""
  errors : String := ""
  ending : Ending := .done

def report (store : Store) (output message : String) : Result :=
  { store, output, errors := "error: " ++ message ++ "\n", ending := .failed }

def scanAll (store : Store) : List String → Node → String → Node × String × Option FileError
  | [], tree, output => (tree, output, none)
  | path :: paths, tree, output =>
    match store.scanFile path tree with
    | .error e => (tree, output, some e)
    | .ok tree => scanAll store paths tree (output ++ "scanned: " ++ path ++ "\n")

/-- Saves the tree and, on request, the reference page. -/
def save (store : Store) (request : Request) (tree : Node) : Store × Option FileError :=
  match store.saveTree request.xmlFile tree with
  | (store, some e) => (store, some e)
  | (store, none) =>
    match request.markdown with
    | none => (store, none)
    | some path =>
      if path.isEmpty then (store, none)
      else
        match store.writeText path (referencePage tree request.title) with
        | .error e => (store, some e)
        | .ok store => (store, none)

/-- Scans files into a tree, and saves it. -/
def update (store : Store) (request : Request) (files : List String) (tree : Node) : Result :=
  match scanAll store files tree "" with
  | (_, output, some e) => report store output e.message
  | (tree, output, none) =>
    match save store request tree with
    | (store, some e) => report store output e.message
    | (store, none) =>
      let count := toString files.length
      let summary := count ++ " files scanned into " ++ request.xmlFile
      { store, output := output ++ "\n" ++ summary ++ "\n" }

/-- The tree to update: the one that is saved, or a new one. -/
def startingTree (store : Store) (request : Request) : Except LoadFailure Node :=
  if store.exists? request.xmlFile then store.loadTree request.xmlFile else .ok .empty

def perform (store : Store) (request : Request) : Result :=
  match startingTree store request with
  | .error e =>
    match e.message? with
    | some message => report store "" message
    | none => { store, ending := .notText }
  | .ok tree =>
    match store.collect request.sources (request.extensions.map withDot) with
    | .error path => report store "" (path ++ " not found")
    | .ok files => update store request files tree

/-- Runs the command. -/
def run (store : Store) (arguments : List String) : Result :=
  match parse arguments with
  | .error .usage => { store, ending := .usage }
  | .error .noValue => { store, ending := .noValue }
  | .ok request => perform store request

end HeaderDocs.CommandLine
