import HeaderDocs.Text.Space
import HeaderDocs.Text.Substitute

/-!
# Comment text

A comment is written for readers of a header, with conventions that carry information of their own:

* `'name()' - text` repeats the name of what it describes;
* `I - text`, `O - text` and `IO - text` say which way an argument is passed.

`normalize` takes these off and gives the text that is left with the direction, if there was one.
-/
namespace HeaderDocs.Comment

open HeaderDocs.Text

/-- A comment without its conventions. -/
structure Normal where
  text : String
  direction : Option String := none
deriving DecidableEq, Repr

/-- Drops white space, one dash and white space again. -/
def skipDash (cs : List Char) : List Char :=
  match trimStart cs with
  | '-' :: rest => trimStart rest
  | rest => rest

/-- The text after a quoted name, if the text starts with one. -/
def afterQuotedName? : List Char → Option (List Char)
  | '\'' :: rest => (breakOn? ['\''] rest).map fun (_, after) => skipDash after
  | _ => none

/-- Splits a direction marker from the text: `I`, `O` or `IO` followed by a space. -/
def direction? : List Char → Option (String × List Char)
  | 'I' :: ' ' :: rest => some ("I", skipDash rest)
  | 'O' :: ' ' :: rest => some ("O", skipDash rest)
  | 'I' :: 'O' :: ' ' :: rest => some ("IO", skipDash rest)
  | _ => none

/-- Drops decoration from both ends: stars, and white space inside of them. -/
def trimStars (cs : List Char) : List Char :=
  let cs := trimStart (cs.dropWhile (· == '*'))
  trimEnd (dropEndWhile (· == '*') cs)

/-- Reads the conventions of a comment. A backslash before a slash keeps the slash from ending the
comment and is dropped. A text that starts with a quote has no direction, even if the quote is not
closed. -/
def normalize (raw : String) : Normal :=
  let cs := replace ['\\', '/'] ['/'] raw.toList
  match afterQuotedName? cs with
  | some rest => ⟨String.ofList (trimStars rest), none⟩
  | none =>
    match direction? cs with
    | some (direction, rest) => ⟨String.ofList (trimStars rest), some direction⟩
    | none => ⟨String.ofList (trimStars cs), none⟩

theorem normalize_empty : normalize "" = ⟨"", none⟩ := by decide

end HeaderDocs.Comment
