/-!
# Finding and replacing parts of a text

`breakOn?` finds the first occurrence of a pattern, and `substitute` replaces every match of a rule,
from left to right and without looking at what it has written. A rule sees the character before
the place it is tried at and the text from there on; it answers with the replacement and the number
of characters replaced.
-/
namespace HeaderDocs.Text

/-- What stands before and after the first occurrence of `pattern`. -/
def breakOn? (pattern : List Char) : List Char → Option (List Char × List Char)
  | [] => if pattern.isEmpty then some ([], []) else none
  | c :: cs =>
    match pattern.isPrefixOf? (c :: cs) with
    | some rest => some ([], rest)
    | none => (breakOn? pattern cs).map fun (before, after) => (c :: before, after)

/-- Whether `pattern` occurs in the text. -/
def contains (pattern cs : List Char) : Bool := (breakOn? pattern cs).isSome

/-- A rule for `substitute`: from the character before a place and the text that starts there, the
replacement and how many characters it replaces. -/
abbrev Rule := Option Char → List Char → Option (List Char × Nat)

/-- `substitute` after the character `before`, with `skip` characters still to be passed over
because the last match covers them. -/
def substituteFrom (rule : Rule) : Option Char → Nat → List Char → List Char
  | _, _, [] => []
  | _, skip + 1, c :: cs => substituteFrom rule (some c) skip cs
  | before, 0, c :: cs =>
    match rule before (c :: cs) with
    | some (new, length) => new ++ substituteFrom rule (some c) (length - 1) cs
    | none => c :: substituteFrom rule (some c) 0 cs

/-- Replaces every match of the rule. A match covers at least one character. -/
def substitute (rule : Rule) (cs : List Char) : List Char := substituteFrom rule none 0 cs

/-- Replaces every occurrence of a non-empty pattern. -/
def replace (pattern new : List Char) (cs : List Char) : List Char :=
  substitute (fun _ rest => if pattern.isPrefixOf rest then some (new, pattern.length) else none) cs

end HeaderDocs.Text
