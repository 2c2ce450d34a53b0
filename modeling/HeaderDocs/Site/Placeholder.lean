import HeaderDocs.Site.Build

/-!
# Placeholders

Site generators that only take pages from a directory are given empty files there in place of the
generated pages. After the build these are removed again, with the directories that are left empty;
the directory of pages itself always stays.
-/
namespace HeaderDocs.Site.Reference

open HeaderDocs.Text

def pagePaths (ref : Reference) : List String :=
  (ref.pages.map (·.1)).mergeSort fun a b => decide (a ≤ b)

/-- The paths of the generated pages in order, as site generators write them: with slashes only, and
without parts that lead nowhere. -/
def pageFiles (ref : Reference) : List String :=
  ref.pagePaths.map fun path =>
    let path := onChars (·.map fun c => if c == '\\' then '/' else c) path
    (if PathName.isAbsolute path then "/" else "") ++
      String.intercalate "/" (PathName.components path)

/-- Makes an empty file for a page. -/
def placeFile (store : Store) (file : String) : Store × Option FileError :=
  match store.makeDirectories (PathName.dirName file) with
  | (store, some e) => (store, some e)
  | (store, none) =>
    match store.write file [] with
    | .ok store => (store, none)
    | .error e => (store, some e)

/-- Makes placeholders in a directory of pages, up to the first that cannot be made. -/
def placeEach (docs : String) :
    List String → Reference → Store → Reference × Store × Option FileError
  | [], ref, store => (ref, store, none)
  | path :: paths, ref, store =>
    let file := PathName.join docs path
    match placeFile store file with
    | (store, some e) => (ref, store, some e)
    | (store, none) =>
      placeEach docs paths { ref with placeholders := ref.placeholders ++ [file] } store

/-- Makes placeholders for all generated pages. -/
def place (ref : Reference) (docs : String) (store : Store) :
    Reference × Store × Option FileError :=
  placeEach docs ref.pagePaths ref store

/-- Removes placeholders that are there, up to the first that cannot be removed. -/
def removeEach (store : Store) : List String → Store × Option FileError
  | [] => (store, none)
  | file :: files =>
    if store.exists? file then
      match store.removeFile file with
      | .ok store => removeEach store files
      | .error e => (store, some e)
    else removeEach store files

/-- Removes a directory and those around it, as long as they are empty and below the directory of
pages, up to the first that cannot be removed. At most `count` directories are looked at. -/
def prune (docs : String) : (count : Nat) → (directory : String) → Store → Store × Option FileError
  | 0, _, store => (store, none)
  | count + 1, directory, store =>
    if PathName.normalize directory != docs && store.isEmptyDirectory directory then
      match store.removeDirectory directory with
      | .ok store => prune docs count (PathName.dirName directory) store
      | .error e => (store, some e)
    else (store, none)

/-- Removes empty directories and those around them, up to the first that cannot be removed. -/
def pruneEach (docs : String) : List String → Store → Store × Option FileError
  | [], store => (store, none)
  | directory :: directories, store =>
    match prune docs directory.length directory store with
    | (store, some e) => (store, some e)
    | (store, none) => pruneEach docs directories store

/-- The directories of placeholders, each once, longest first. -/
def placeholderDirectories (files : List String) : List String :=
  (files.map PathName.dirName).eraseDups.mergeSort fun a b => decide (b.length ≤ a.length)

/-- Removes all placeholders and the directories that are left empty. -/
def clear (ref : Reference) (docs : String) (store : Store) :
    Reference × Store × Option FileError :=
  match removeEach store ref.placeholders with
  | (store, some e) => (ref, store, some e)
  | (store, none) =>
    match pruneEach (PathName.normalize docs) (placeholderDirectories ref.placeholders) store with
    | (store, some e) => (ref, store, some e)
    | (store, none) => ({ ref with placeholders := [] }, store, none)

end HeaderDocs.Site.Reference
