import HeaderDocs.Text.Letter
import HeaderDocs.Xml.NameTable

/-! # Characters of XML documents -/
namespace HeaderDocs.Xml

open HeaderDocs.Text

/-- Characters that a document may hold. Control characters other than tab and line ends are not
among them, and neither are the last two characters of the basic plane. -/
def isChar (c : Char) : Bool :=
  c == '\t' || c == '\n' || c == '\r' ||
    (0x20 ≤ c.toNat && c.toNat != 0xFFFE && c.toNat != 0xFFFF)

/-- White space of the markup itself. -/
def isSpace (c : Char) : Bool := c == ' ' || c == '\t' || c == '\n' || c == '\r'

def isNameStart (c : Char) : Bool :=
  if c.toNat < 128 then isAsciiLetter c || c == '_' else inRanges nameStartRanges c.toNat

def isNameChar (c : Char) : Bool :=
  isNameStart c ||
    if c.toNat < 128 then isAsciiDigit c || c == '-' || c == '.'
    else inRanges nameRestRanges c.toNat

/-- A text with the characters taken out that no document may hold. -/
def safeText (s : String) : String := String.ofList (s.toList.filter isChar)

end HeaderDocs.Xml
