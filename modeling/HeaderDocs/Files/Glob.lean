/-!
# File name patterns

A pattern is a text in which `*` stands for any characters, `?` for one character and a set in
brackets for one of its characters; slashes are characters like any other. A bracket that is not
closed stands for itself.
-/
namespace HeaderDocs.Glob

inductive Item where
  | char (c : Char)
  | any
  | star
  /-- A set of ranges, or of what lies outside of them. -/
  | set (negated : Bool) (ranges : List (Char × Char))
deriving DecidableEq, Repr

/-! ## Sets -/

/-- Splits the inside of a set at the hyphens that make ranges. A hyphen makes a range if at least
one character stands before it; the end of a range does not start the next one. -/
def splitRanges (current : List Char) : Nat → List Char → List (List Char)
  | _, [] => [current.reverse]
  | wait, c :: cs =>
    if c == '-' && wait == 0 then current.reverse :: splitRanges [] 2 cs
    else splitRanges (c :: current) (wait - 1) cs

/-- Gives a hyphen at the very end of a set back to the part before it: it makes no range. -/
def closeLast : List (List Char) → List (List Char)
  | [chunk, []] => [chunk ++ ['-']]
  | [] => []
  | chunk :: chunks => chunk :: closeLast chunks

/-- Joins a part of a set with the parts after it, and drops the ends of a range between them that
holds nothing. -/
def dropEmptyRange (chunk : List Char) : List (List Char) → List (List Char)
  | [] => [chunk]
  | next :: chunks =>
    match chunk.getLast?, next with
    | some low, high :: rest =>
      if high < low then (chunk.dropLast ++ rest) :: chunks else chunk :: next :: chunks
    | _, _ => chunk :: next :: chunks

/-- The parts of a set without empty ranges, worked out from the end. -/
def dropEmptyRanges (chunks : List (List Char)) : List (List Char) :=
  chunks.foldr dropEmptyRange []

/-- The ranges of a set, from its parts: each character by itself, and from the last character of a
part to the first of the next. -/
def rangesOf : List (List Char) → List (Char × Char)
  | [] => []
  | chunk :: chunks =>
    let between := match chunk.getLast?, chunks.head?.bind (·.head?) with
      | some low, some high => [(low, high)]
      | _, _ => []
    chunk.map (fun c => (c, c)) ++ between ++ rangesOf chunks

/-- The item for what stands between brackets. -/
def setItem (inside : List Char) : Item :=
  let wait := if inside.head? == some '!' then 2 else 1
  let chunks := dropEmptyRanges (closeLast (splitRanges [] wait inside))
  match chunks with
  | ('!' :: chunk) :: chunks => .set true (rangesOf (chunk :: chunks))
  | chunks => .set false (rangesOf chunks)

/-! ## Patterns -/

/-- Where the inside of a set ends, if it does: at the first closing bracket that is not its first
character. -/
def closeSet? (cs : List Char) : Option (List Char × List Char) :=
  let start := match cs with
    | '!' :: ']' :: _ => 2
    | '!' :: _ => 1
    | ']' :: _ => 1
    | _ => 0
  let inside := (cs.drop start).takeWhile (· != ']')
  match cs.drop (start + inside.length) with
  | ']' :: rest => some (cs.take start ++ inside, rest)
  | _ => none

/-- The items of a pattern, of which `skip` characters belong to the item before. -/
def itemsFrom : Nat → List Char → List Item
  | _, [] => []
  | skip + 1, _ :: cs => itemsFrom skip cs
  | 0, c :: cs =>
    match c with
    | '*' => .star :: itemsFrom 0 cs
    | '?' => .any :: itemsFrom 0 cs
    | '[' =>
      match closeSet? cs with
      | some (inside, _) => setItem inside :: itemsFrom (inside.length + 1) cs
      | none => .char '[' :: itemsFrom 0 cs
    | c => .char c :: itemsFrom 0 cs

def items (pattern : String) : List Item := itemsFrom 0 pattern.toList

/-! ## Matching -/

/-- Whether an item that stands for one character stands for this one. -/
def Item.accepts : Item → Char → Bool
  | char d, c => c == d
  | any, _ => true
  | star, _ => false
  | set negated ranges, c => negated != ranges.any fun (low, high) => low ≤ c && c ≤ high

/-- Whether `p` holds of the text or of one of its ends. -/
def someEnd (p : List Char → Bool) : List Char → Bool
  | [] => p []
  | c :: cs => p (c :: cs) || someEnd p cs

def matchItems : List Item → List Char → Bool
  | [], cs => cs.isEmpty
  | .star :: items, cs => someEnd (matchItems items) cs
  | item :: items, cs =>
    match cs with
    | [] => false
    | c :: cs => item.accepts c && matchItems items cs

/-- Whether a name matches a pattern as a whole. -/
def isMatch (name pattern : String) : Bool := matchItems (items pattern) name.toList

end HeaderDocs.Glob
