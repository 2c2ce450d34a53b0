/-!
# UTF-8

Bytes and texts. Decoding first cuts the bytes into units, each of which is a character or
ill-formed; `decode?` accepts only texts without ill-formed units, and `decodeLossy` writes the
replacement character for each of them. An ill-formed unit is the longest start of a character that
the bytes contain at that place, or a single byte where no character can start.
-/
namespace HeaderDocs.Text.Utf8

/-! ## Units -/

/-- The values allowed for the bytes that follow a leading byte, and the bits that the leading byte
contributes. Overlong forms, surrogates and numbers beyond U+10FFFF are excluded here. -/
def tailOf? (b : Nat) : Option (Nat × List (Nat × Nat)) :=
  if b < 0x80 then some (b, [])
  else if 0xC2 ≤ b && b ≤ 0xDF then some (b - 0xC0, [(0x80, 0xBF)])
  else if b == 0xE0 then some (0, [(0xA0, 0xBF), (0x80, 0xBF)])
  else if b == 0xED then some (0xD, [(0x80, 0x9F), (0x80, 0xBF)])
  else if 0xE1 ≤ b && b ≤ 0xEF then some (b - 0xE0, [(0x80, 0xBF), (0x80, 0xBF)])
  else if b == 0xF0 then some (0, [(0x90, 0xBF), (0x80, 0xBF), (0x80, 0xBF)])
  else if b == 0xF4 then some (4, [(0x80, 0x8F), (0x80, 0xBF), (0x80, 0xBF)])
  else if 0xF1 ≤ b && b ≤ 0xF3 then some (b - 0xF0, [(0x80, 0xBF), (0x80, 0xBF), (0x80, 0xBF)])
  else none

/-- Reads the bytes after a leading byte: the code point if all of them are as allowed, and how
many of them belong to the unit. -/
def readTail (value : Nat) : List (Nat × Nat) → List UInt8 → Option Nat × Nat
  | [], _ => (some value, 0)
  | _ :: _, [] => (none, 0)
  | (low, high) :: ranges, b :: bytes =>
    if low ≤ b.toNat && b.toNat ≤ high then
      let (result, length) := readTail (value * 64 + (b.toNat - 0x80)) ranges bytes
      (result, length + 1)
    else (none, 0)

/-- The unit that starts with byte `b`: its character, and how many further bytes it takes. -/
def readUnit (b : UInt8) (bytes : List UInt8) : Option Char × Nat :=
  match tailOf? b.toNat with
  | none => (none, 0)
  | some (value, ranges) =>
    let (result, length) := readTail value ranges bytes
    (result.map Char.ofNat, length)

/-- The units of a byte sequence, of which `skip` bytes belong to the unit before. -/
def unitsFrom : Nat → List UInt8 → List (Option Char)
  | _, [] => []
  | skip + 1, _ :: bytes => unitsFrom skip bytes
  | 0, b :: bytes =>
    let (c, length) := readUnit b bytes
    c :: unitsFrom length bytes

def units (bytes : List UInt8) : List (Option Char) := unitsFrom 0 bytes

/-! ## Texts -/

/-- The characters of a list of units, if all are well-formed. -/
def allChars? : List (Option Char) → Option (List Char)
  | [] => some []
  | none :: _ => none
  | some c :: us => (allChars? us).map (c :: ·)

/-- The text, if the bytes are well-formed. -/
def decode? (bytes : List UInt8) : Option (List Char) := allChars? (units bytes)

/-- The text with U+FFFD for each ill-formed unit. -/
def decodeLossy (bytes : List UInt8) : List Char := (units bytes).map (·.getD '\uFFFD')

def encode (cs : List Char) : List UInt8 := cs.flatMap String.utf8EncodeChar

end HeaderDocs.Text.Utf8
