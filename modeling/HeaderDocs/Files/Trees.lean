import HeaderDocs.Files.Store
import HeaderDocs.Scan.Source
import HeaderDocs.Text.Newline
import HeaderDocs.Text.Utf8
import HeaderDocs.Tree.Saved

/-!
# Files that hold trees and sources

Trees are saved as UTF-8 and loaded only if they are well-formed; sources are read with replacement
characters where they are not. Either way all line ends are read as line feeds.
-/
namespace HeaderDocs

open HeaderDocs.Text

/-- Why a tree could not be loaded from a file. -/
inductive LoadFailure where
  | unreadable (path : String) (error : FileError)
  /-- The file is not UTF-8. -/
  | notText
  | notTree (error : LoadError)
deriving DecidableEq, Repr

/-- What to say about a tree that could not be loaded, unless its file is not even a text. -/
def LoadFailure.message? : LoadFailure → Option String
  | unreadable path error =>
    some ("unable to read documentation file " ++ path ++ ": " ++ error.message)
  | notText => none
  | notTree error => some error.message

def sourceText (bytes : List UInt8) : String :=
  String.ofList (normalizeNewlines (Utf8.decodeLossy bytes))

namespace Store

def scanFile (s : Store) (path : String) (tree : Node) : Outcome Node :=
  (s.read path).map fun bytes => Scan.scan (sourceText bytes) tree

def loadTree (s : Store) (path : String) : Except LoadFailure Node :=
  match s.read path with
  | .error e => .error (.unreadable path e)
  | .ok bytes =>
    match Utf8.decode? bytes with
    | none => .error .notText
    | some cs =>
      match Node.ofXml (String.ofList (normalizeNewlines cs)) with
      | .error e => .error (.notTree e)
      | .ok tree => .ok tree

def writeText (s : Store) (path text : String) : Outcome Store :=
  s.write path (Utf8.encode text.toList)

/-- Saves a tree in a file, whose directory is made if it is not there. The directory is made even
if the file cannot be written. -/
def saveTree (s : Store) (path : String) (tree : Node) : Store × Option FileError :=
  let directory := PathName.dirName path
  match if directory.isEmpty then (s, none) else s.makeDirectories directory with
  | (s, some e) => (s, some e)
  | (s, none) =>
    match s.writeText path tree.toXml with
    | .error e => (s, some e)
    | .ok s => (s, none)

end Store

end HeaderDocs
