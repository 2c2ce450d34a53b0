import HeaderDocs.Text.Letter

/-!
# Whole numbers

A whole number is written with a sign, if any, and decimal digits of any script; a single underscore
may stand between two digits.
-/
namespace HeaderDocs.Text

/-- The value of digits, after `value` and, if `separated`, an underscore. -/
def digitsFrom? (value : Nat) (separated : Bool) : List Char → Option Nat
  | [] => if separated then none else some value
  | c :: cs =>
    if c == '_' then if separated then none else digitsFrom? value true cs
    else
      match decimalValue? c with
      | some d => digitsFrom? (value * 10 + d) false cs
      | none => none

/-- The value of a number without a sign. -/
def digits? : List Char → Option Nat
  | [] => none
  | c :: cs => if c == '_' then none else digitsFrom? 0 false (c :: cs)

def integer? : List Char → Option Int
  | '+' :: cs => (digits? cs).map Int.ofNat
  | '-' :: cs => (digits? cs).map fun n => -(n : Int)
  | cs => (digits? cs).map Int.ofNat

end HeaderDocs.Text
