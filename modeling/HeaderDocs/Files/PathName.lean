import HeaderDocs.Text.Space

/-!
# Path names

Path names are texts, and many texts name one place. The functions here work on the texts alone, and
no directory is looked at.

* `components` are the parts between slashes that lead anywhere;
* `normalize` takes out what leads nowhere and back;
* `relativeTo?` leads from one place to another.
-/
namespace HeaderDocs.PathName

open HeaderDocs.Text

def isAbsolute (path : String) : Bool := path.toList.head? == some '/'

def parts (path : String) : List String := (splitWhere (· == '/') path.toList).map String.ofList

/-- The parts of a path name that lead to another place. -/
def components (path : String) : List String :=
  (parts path).filter fun part => part != "" && part != "."

/-- The part of a path name after its last slash. -/
def baseName (path : String) : String :=
  String.ofList (path.toList.reverse.takeWhile (· != '/')).reverse

/-- The part of a path name before its last slash; slashes at its end are dropped, unless there is
nothing else. -/
def dirName (path : String) : String :=
  let head := (path.toList.reverse.dropWhile (· != '/')).reverse
  if head.all (· == '/') then String.ofList head
  else String.ofList (dropEndWhile (· == '/') head)

/-- One path name followed by another, which stands alone if it is absolute. -/
def join (path other : String) : String :=
  if isAbsolute other then other
  else if path.isEmpty || path.toList.getLast? == some '/' then path ++ other
  else path ++ "/" ++ other

/-- Adds a part to a place, given by its parts from the inside out. Above the top there is nothing,
and a relative place keeps its way up. -/
def enter (absolute : Bool) (place : List String) (part : String) : List String :=
  if part != ".." then part :: place
  else
    match place with
    | [] => if absolute then [] else [".."]
    | last :: outer => if last == ".." then ".." :: place else outer

/-- The slashes that an absolute path name starts with: exactly two are kept. -/
def rootSlashes (path : String) : String :=
  match path.toList with
  | '/' :: '/' :: '/' :: _ => "/"
  | '/' :: '/' :: _ => "//"
  | '/' :: _ => "/"
  | _ => ""

/-- The shortest path name of the same place. -/
def normalize (path : String) : String :=
  let place := (components path).foldl (enter (isAbsolute path)) []
  let text := rootSlashes path ++ String.intercalate "/" place.reverse
  if text.isEmpty then "." else text

/-- The path name from the top, in a working directory. -/
def absolute (cwd path : String) : String :=
  normalize (if isAbsolute path then path else join cwd path)

/-- What is left of two lists after the parts that they begin with in common. -/
def withoutCommon : List String → List String → List String × List String
  | a :: as, b :: bs => if a == b then withoutCommon as bs else (a :: as, b :: bs)
  | as, bs => (as, bs)

/-- The way from a directory to a place. No way leads to the empty path name. -/
def relativeTo? (cwd path directory : String) : Option String :=
  if path.isEmpty then none
  else
    let (up, down) :=
      withoutCommon (components (absolute cwd directory)) (components (absolute cwd path))
    let way := up.map (fun _ => "..") ++ down
    some (if way.isEmpty then "." else String.intercalate "/" way)

/-- The ending of a file name from its last dot on. Dots at the start of the name end nothing. -/
def extension (path : String) : String :=
  let name := (baseName path).toList
  let stem := name.dropWhile (· == '.')
  if stem.contains '.' then
    String.ofList ('.' :: (stem.reverse.takeWhile (· != '.')).reverse)
  else ""

end HeaderDocs.PathName
