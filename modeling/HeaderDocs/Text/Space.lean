/-!
# White space

Which characters separate words, and the ways of taking them off a text: from its start
(`trimStart`), from its end (`trimEnd`), from both (`trim`), or everywhere (`words`).

Texts are handled as lists of characters; the functions on `String` at the end of the module are
the same functions behind `String.toList` and `String.ofList`.

* `trimStart_eq_self`: a text that does not start with white space is left alone.
-/
namespace HeaderDocs.Text

/-- White space as Unicode has it: the characters with the property `White_Space`, and the four
information separators U+001C to U+001F, which are paragraph and segment separators. -/
def isSpace (c : Char) : Bool :=
  let n := c.toNat
  (9 ≤ n && n ≤ 13) || (28 ≤ n && n ≤ 32) || n == 0x85 || n == 0xA0 || n == 0x1680 ||
    (0x2000 ≤ n && n ≤ 0x200A) || n == 0x2028 || n == 0x2029 || n == 0x202F || n == 0x205F ||
    n == 0x3000

/-! ## Taking characters off the ends -/

/-- Drops the longest end of a list on which `p` holds. -/
def dropEndWhile (p : Char → Bool) (cs : List Char) : List Char :=
  (cs.reverse.dropWhile p).reverse

def trimStart (cs : List Char) : List Char := cs.dropWhile isSpace

def trimEnd (cs : List Char) : List Char := dropEndWhile isSpace cs

def trim (cs : List Char) : List Char := trimEnd (trimStart cs)

theorem dropEndWhile_concat (p : Char → Bool) (cs : List Char) (c : Char) :
    dropEndWhile p (cs ++ [c]) = if p c then dropEndWhile p cs else cs ++ [c] := by
  by_cases h : p c <;> simp [dropEndWhile, h]

theorem trimStart_eq_self {c : Char} (h : isSpace c = false) (cs : List Char) :
    trimStart (c :: cs) = c :: cs := by
  simp [trimStart, h]

/-! ## Splitting -/

/-- The pieces between the characters on which `p` holds. There is always one piece more than there
are such characters, so the empty text has one piece. -/
def splitWhere (p : Char → Bool) : List Char → List (List Char)
  | [] => [[]]
  | c :: cs =>
    if p c then [] :: splitWhere p cs
    else
      match splitWhere p cs with
      | [] => [[c]]
      | piece :: pieces => (c :: piece) :: pieces

/-- The lines of a text. Only a line feed ends a line. -/
def lines (cs : List Char) : List (List Char) := splitWhere (· == '\n') cs

/-- The maximal runs of characters that are not white space. -/
def words (cs : List Char) : List (List Char) := (splitWhere isSpace cs).filter (!·.isEmpty)

/-! ## The same on strings -/

/-- Applies a function on character lists to a string. -/
def onChars (f : List Char → List Char) (s : String) : String := String.ofList (f s.toList)

@[simp] theorem toList_onChars (f : List Char → List Char) (s : String) :
    (onChars f s).toList = f s.toList := String.toList_ofList

/-- The string without white space at either end. -/
def stripped (s : String) : String := onChars trim s

def wordsOf (s : String) : List String := (words s.toList).map String.ofList

end HeaderDocs.Text
