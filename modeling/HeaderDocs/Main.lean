import HeaderDocs.CommandLine.Update

/-!
# The command

`main` looks up what is at the path names that the arguments ask for, runs the command on a store
that holds just that, and writes the differences back. Whatever is decided is decided by
`CommandLine.run`.
-/
namespace HeaderDocs.CommandLine

/-- What is at a path name, if anything is. -/
def lookUp (path : String) : IO (Option Entry) := do
  let place : IO.FS.DirEntry := { root := path, fileName := "" }
  if ← place.root.isDir then return some .directory
  else if ← place.root.pathExists then
    return some (.file (← IO.FS.readBinFile path).toList)
  else return none

def nameOf (l : Location) : String := "/" ++ String.intercalate "/" l

def addAt (store : Store) (l : Location) : IO Store := do
  if l.isEmpty then return store
  match ← lookUp (nameOf l) with
  | some entry => return store.put l entry
  | none => return store

/-- Adds what is at a location and below it to a store. -/
partial def addBelow (store : Store) (l : Location) : IO Store := do
  let store ← addAt store l
  let place : IO.FS.DirEntry := { root := nameOf l, fileName := "" }
  if ← place.root.isDir then
    (← place.root.readDir).foldlM (fun store entry => addBelow store (l ++ [entry.fileName])) store
  else return store

/-- Adds what a path name leads to, with the directories on the way. -/
def addPath (deep : Bool) (store : Store) (path : String) : IO Store := do
  let target := PathName.components (PathName.absolute (nameOf store.cwd) path)
  let store ← ((List.range target.length).map target.take).foldlM addAt store
  if deep then addBelow store target else addAt store target

/-- The part of the file system that a request is about. -/
def snapshot (request : Request) : IO Store := do
  let store : Store := { cwd := PathName.components (← IO.currentDir).toString }
  let store ← addPath false store request.xmlFile
  let store ← request.markdown.toList.foldlM (addPath false) store
  request.sources.foldlM (addPath true) store

def writeBack (before after : Store) : IO Unit :=
  after.entries.forM fun (l, entry) => do
    if before.entryAt? l != some entry then
      match entry with
      | .directory => IO.FS.createDirAll (nameOf l)
      | .file bytes => IO.FS.writeBinFile (nameOf l) bytes.toByteArray

def Ending.exitCode : Ending → UInt32
  | done => 0
  | usage => 2
  | failed | noValue | notText => 1

/-- What to say where the command itself says nothing. -/
def Ending.explanation : Ending → String
  | usage =>
    "usage: XMLFILE SOURCE [SOURCE ...] [--ext EXT [EXT ...]] [--markdown OUT] [--title TITLE]\n"
  | noValue => "error: an option has no value\n"
  | notText => "error: the documentation file is not UTF-8\n"
  | done | failed => ""

/-- Runs the command on the file system. -/
def execute (arguments : List String) : IO UInt32 := do
  let store ← match parse arguments with
    | .ok request => snapshot request
    | .error _ => pure {}
  let result := run store arguments
  writeBack store result.store
  IO.print result.output
  IO.eprint (result.errors ++ result.ending.explanation)
  return result.ending.exitCode

end HeaderDocs.CommandLine

def main (arguments : List String) : IO UInt32 := HeaderDocs.CommandLine.execute arguments
