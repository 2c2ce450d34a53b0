import HeaderDocs.Files.Glob
import HeaderDocs.Files.Store
import HeaderDocs.Text.Lower

/-!
# Finding sources

Two ways to choose the sources below a directory: by the ending of their names, with patterns for
what to leave out (`discover`), and by their extension, for directories and files that are named one
by one (`collect`).
-/
namespace HeaderDocs

open HeaderDocs.Text

def withDot (ext : String) : String := if ext.toList.head? == some '.' then ext else "." ++ ext

namespace Store

/-- Whether a name ends in one of the extensions, whatever their case. -/
def hasExtension (extensions : List String) (name : String) : Bool :=
  extensions.any fun e => (lower (withDot e).toList).isSuffixOf (lower name.toList)

/-- Whether a relative path name or its last part matches a pattern. -/
def isMatch (path pattern : String) : Bool :=
  Glob.isMatch (PathName.baseName path) pattern || Glob.isMatch path pattern

/-- Whether a relative path name matches one of the patterns. -/
def isExcluded (exclude : List String) (path : String) : Bool := exclude.any (isMatch path)

/-- The path names of the files below a directory that have one of the extensions, relative to it
and in order. -/
def filesBelow (s : Store) (root : String) (extensions : List String) : List String :=
  let cwd := "/" ++ String.intercalate "/" s.cwd
  let found := (s.walk root).flatMap fun (directory, names) =>
    (names.filter (hasExtension extensions)).filterMap fun name =>
      PathName.relativeTo? cwd (PathName.join directory name) root
  found.mergeSort fun a b => decide (a ≤ b)

/-- The path names of the sources below a directory, relative to it and in order. -/
def discover (s : Store) (root : String) (extensions exclude : List String) : List String :=
  (s.filesBelow root extensions).filter (!isExcluded exclude ·)

/-- The files that a list of path names stands for: files themselves, and files with one of the
extensions below directories. A path name that leads nowhere is the error. -/
def collect (s : Store) (paths extensions : List String) : Except String (List String) :=
  match paths with
  | [] => .ok []
  | path :: paths =>
    let here :=
      if s.isFile path then some [path]
      else if s.isDirectory path then
        some <| (s.walk path).flatMap fun (directory, names) =>
          (names.filter fun name =>
            extensions.contains (lowered (PathName.extension name))).map (PathName.join directory)
      else none
    match here with
    | none => .error path
    | some files => (s.collect paths extensions).map (files ++ ·)

end Store

end HeaderDocs
