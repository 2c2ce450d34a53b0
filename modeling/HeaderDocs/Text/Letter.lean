import HeaderDocs.Text.LetterTable

/-!
# Letters and digits

The character classes that decide where an identifier begins and ends. ASCII is decided by
comparison, the rest by the ranges of `HeaderDocs.Text.LetterTable`.

* `isAlphanumeric_of_isLetter`: letters are alphanumeric.
-/
namespace HeaderDocs.Text

/-- Whether a code point lies in one of the ranges. -/
def inRanges (ranges : List (Nat × Nat)) (n : Nat) : Bool :=
  ranges.any fun (first, last) => first ≤ n && n ≤ last

def isAsciiLetter (c : Char) : Bool :=
  ('a' ≤ c && c ≤ 'z') || ('A' ≤ c && c ≤ 'Z')

def isAsciiDigit (c : Char) : Bool := '0' ≤ c && c ≤ '9'

/-- Letters of any script. -/
def isLetter (c : Char) : Bool :=
  if c.toNat < 128 then isAsciiLetter c else inRanges letterRanges c.toNat

/-- Letters, digits and all other characters with a numeric value. -/
def isAlphanumeric (c : Char) : Bool :=
  if c.toNat < 128 then isAsciiLetter c || isAsciiDigit c
  else inRanges letterRanges c.toNat || inRanges numberRanges c.toNat

/-- Characters with a digit value, raised and circled ones included. -/
def isDigit (c : Char) : Bool :=
  if c.toNat < 128 then isAsciiDigit c else inRanges digitRanges c.toNat

/-- Alphanumeric characters and the underscore. -/
def isWordChar (c : Char) : Bool := isAlphanumeric c || c == '_'

def decimalValue? (c : Char) : Option Nat :=
  if c.toNat < 128 then if isAsciiDigit c then some (c.toNat - 48) else none
  else (decimalRanges.find? fun (first, last) => first ≤ c.toNat && c.toNat ≤ last).map
    fun (first, _) => (c.toNat - first) % 10

theorem isAlphanumeric_of_isLetter {c : Char} (h : isLetter c = true) :
    isAlphanumeric c = true := by
  unfold isLetter at h
  unfold isAlphanumeric
  split at h <;> simp_all

end HeaderDocs.Text
