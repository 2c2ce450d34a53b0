import HeaderDocs.Files.PathName
import HeaderDocs.Text.Quoted

/-!
# A store of files

A store says what there is at each location, and which directory is the working one. Locations are
lists of names from the top down. Every operation takes a path name as it would be typed: all the
directories that it leads through have to be there, and `..` leads out of the last of them.

* `entryAt?_put`, `entryAt?_delete`: what is at a location after a change.
-/
namespace HeaderDocs

open HeaderDocs.Text

/-- Names from the top down. -/
abbrev Location := List String

/-- Whether a location stands before another one or is the same, by the first names that differ. -/
def Location.precedes : Location → Location → Bool
  | [], _ => true
  | _ :: _, [] => false
  | a :: l, b :: m => if a == b then precedes l m else decide (a < b)

inductive Entry where
  | file (bytes : List UInt8)
  | directory
deriving DecidableEq, Repr

structure Store where
  cwd : Location := []
  entries : List (Location × Entry) := []
deriving Repr

/-- Why an operation on a path name fails. -/
inductive FileCause where
  | notFound
  | alreadyExists
  | notDirectory
  | isDirectory
  /-- Also of a directory that is named by a dot, which is never removed. -/
  | notEmpty
deriving DecidableEq, Repr

structure FileError where
  cause : FileCause
  path : String
deriving DecidableEq, Repr

/-- The number and the text of a cause, as operating systems give them. -/
def FileCause.text : FileCause → String
  | notFound => "[Errno 2] No such file or directory"
  | alreadyExists => "[Errno 17] File exists"
  | notDirectory => "[Errno 20] Not a directory"
  | isDirectory => "[Errno 21] Is a directory"
  | notEmpty => "[Errno 39] Directory not empty"

def FileError.message (e : FileError) : String := e.cause.text ++ ": " ++ quoted e.path

namespace Store

/-! ## Locations -/

/-- What is at a location. At the top there is always a directory. -/
def entryAt? (s : Store) (l : Location) : Option Entry :=
  if l.isEmpty then some .directory else (s.entries.find? (·.1 == l)).map (·.2)

/-- Puts an entry at a location, in place of what is there. -/
def put (s : Store) (l : Location) (e : Entry) : Store :=
  { s with entries := (s.entries.filter (·.1 != l)) ++ [(l, e)] }

/-- Takes away what is at a location. -/
def delete (s : Store) (l : Location) : Store :=
  { s with entries := s.entries.filter (·.1 != l) }

def inside (s : Store) (l : Location) : List (Location × Entry) :=
  s.entries.filter fun (m, _) => !m.isEmpty && m.dropLast == l

/-- The entries below a directory at any depth. -/
def below (s : Store) (l : Location) : List (Location × Entry) :=
  s.entries.filter fun (m, _) => l.isPrefixOf m && m != l

/-- Follows the parts of a path name. All but the last have to lead to directories. -/
def follow (s : Store) : Location → List String → Except FileCause Location
  | l, [] => .ok l
  | l, part :: parts =>
    match s.entryAt? l with
    | some .directory => s.follow (if part == ".." then l.dropLast else l ++ [part]) parts
    | some (.file _) => .error .notDirectory
    | none => .error .notFound

/-- Whether a path name can only lead to a directory. -/
def needsDirectory (path : String) : Bool :=
  let last := PathName.baseName path
  last == "" || last == "."

/-- Where a path name starts from. -/
def origin (s : Store) (path : String) : Location := if PathName.isAbsolute path then [] else s.cwd

/-- The location that a path name leads to, with what is there. -/
def locate (s : Store) (path : String) : Except FileCause (Location × Option Entry) :=
  if path.isEmpty then .error .notFound
  else
    match s.follow (s.origin path) (PathName.components path) with
    | .error e => .error e
    | .ok l =>
      match s.entryAt? l with
      | some (.file bytes) =>
        if needsDirectory path then .error .notDirectory else .ok (l, some (.file bytes))
      | e => .ok (l, e)

/-- What a path name leads to, if it leads anywhere. -/
def find? (s : Store) (path : String) : Option Entry :=
  match s.locate path with
  | .ok (_, e) => e
  | .error _ => none

def exists? (s : Store) (path : String) : Bool := (s.find? path).isSome

def isDirectory (s : Store) (path : String) : Bool := s.find? path == some .directory

def isFile (s : Store) (path : String) : Bool := (s.find? path).any (· != .directory)

/-! ## Operations -/

/-- The result of an operation on a path name. -/
abbrev Outcome (α : Type) := Except FileError α

def failed {α : Type} (cause : FileCause) (path : String) : Outcome α := .error ⟨cause, path⟩

def read (s : Store) (path : String) : Outcome (List UInt8) :=
  match s.locate path with
  | .error e => failed e path
  | .ok (_, some (.file bytes)) => .ok bytes
  | .ok (_, some .directory) => failed .isDirectory path
  | .ok (_, none) => failed .notFound path

/-- Whether the last part of a path name is a dot, whatever slashes follow. -/
def endsInDot (path : String) : Bool :=
  ((PathName.parts path).filter (· != "")).getLast? == some "."

/-- Writes a file, which is made if it is not there. Its directory has to be there. With a slash at
the end, the path name is taken for that of a directory without looking. -/
def write (s : Store) (path : String) (bytes : List UInt8) : Outcome Store :=
  if path.isEmpty then failed .notFound path
  else
    match s.follow (s.origin path) (PathName.components path) with
    | .error e => failed e path
    | .ok l =>
      if needsDirectory path && !endsInDot path then failed .isDirectory path
      else
        match s.entryAt? l with
        | some .directory => failed .isDirectory path
        | some (.file _) =>
          if endsInDot path then failed .notDirectory path else .ok (s.put l (.file bytes))
        | none => if endsInDot path then failed .notFound path else .ok (s.put l (.file bytes))

def makeDirectory (s : Store) (path : String) : Outcome Store :=
  match s.locate path with
  | .error e => failed e path
  | .ok (_, some _) => failed .alreadyExists path
  | .ok (l, none) => .ok (s.put l .directory)

def ensureDirectory (s : Store) (path : String) : Outcome Store :=
  match s.makeDirectory path with
  | .ok s => .ok s
  | .error e => if s.isDirectory path then .ok s else .error e

/-- The path names of the directories around a path name, innermost first and at most `count` of
them. Slashes at the end of a name do not count. -/
def directoriesAround : (count : Nat) → (path : String) → List String
  | 0, _ => []
  | count + 1, path =>
    let path := if PathName.baseName path == "" then PathName.dirName path else path
    let head := PathName.dirName path
    if head.isEmpty || PathName.baseName path == "" then []
    else head :: directoriesAround count head

/-- Makes directories one after the other, up to the first that cannot be made. A file that stands
in the place of one is only noticed when something is to be made in it, or at the last. -/
def makeEach (s : Store) : List String → Store × Option FileError
  | [] => (s, none)
  | path :: paths =>
    match s.ensureDirectory path with
    | .ok s => s.makeEach paths
    | .error e =>
      if e.cause == .alreadyExists && !paths.isEmpty then s.makeEach paths else (s, some e)

/-- Makes a directory and those that lead to it. It may be there already. What was made before an
error stays. -/
@[irreducible] def makeDirectories (s : Store) (path : String) : Store × Option FileError :=
  let missing := (directoriesAround path.length path).takeWhile fun head => !s.exists? head
  s.makeEach (missing.reverse ++ [path])

def removeFile (s : Store) (path : String) : Outcome Store :=
  match s.locate path with
  | .error e => failed e path
  | .ok (l, some (.file _)) => .ok (s.delete l)
  | .ok (_, some .directory) => failed .isDirectory path
  | .ok (_, none) => failed .notFound path

/-- Whether a path name leads to a directory with nothing in it. -/
def isEmptyDirectory (s : Store) (path : String) : Bool :=
  match s.locate path with
  | .ok (l, some .directory) => (s.inside l).isEmpty
  | _ => false

/-- Removes a directory with nothing in it, unless it is named by a dot. -/
def removeDirectory (s : Store) (path : String) : Outcome Store :=
  match s.locate path with
  | .error e => failed e path
  | .ok (l, some .directory) =>
    if (s.inside l).isEmpty && !endsInDot path then .ok (s.delete l) else failed .notEmpty path
  | .ok (_, some (.file _)) => failed .notDirectory path
  | .ok (_, none) => failed .notFound path

/-! ## Walking -/

/-- The directories at and below a path name, each before those in it, and the names of the files in
each in order. -/
def walk (s : Store) (path : String) : List (String × List String) :=
  match s.locate path with
  | .ok (top, some .directory) =>
    let directories := (s.below top).filterMap fun (l, e) =>
      if e == .directory then some (l.drop top.length) else none
    let directories := directories.mergeSort Location.precedes
    ([] :: directories).map fun l =>
      let names := (s.inside (top ++ l)).filterMap fun (m, e) =>
        if e == .directory then none else m.getLast?
      (l.foldl PathName.join path, names.mergeSort fun a b => decide (a ≤ b))
  | _ => []

/-! ## Lemmas -/

theorem entryAt?_put (s : Store) {l : Location} (h : l ≠ []) (e : Entry) :
    (s.put l e).entryAt? l = some e := by
  have hn : (s.entries.filter (·.1 != l)).find? (·.1 == l) = none := by
    rw [List.find?_eq_none]
    intro x hx
    simp only [List.mem_filter, bne_iff_ne] at hx
    simp [hx.2]
  simp [entryAt?, put, h, List.find?_append, hn]

theorem entryAt?_delete (s : Store) {l : Location} (h : l ≠ []) :
    (s.delete l).entryAt? l = none := by
  simp only [entryAt?, delete, List.isEmpty_iff, h, if_false, Option.map_eq_none_iff,
    List.find?_eq_none, List.mem_filter, bne_iff_ne]
  rintro x ⟨_, hx⟩
  simpa using hx

end Store

end HeaderDocs
