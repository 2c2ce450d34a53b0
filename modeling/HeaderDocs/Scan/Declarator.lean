import HeaderDocs.Scan.Fragment

/-!
# Declarators

When a declaration has ended, its run of fragments is taken apart into the name that is declared,
its type and its initial value:

* `int *foo = 0` declares `foo` of type `int *`, with the initial value `0`;
* `void (*cb)(int x)` declares `(*cb)(int x)` of type `void`.

`ofRun?_eq_none_iff`: a run declares nothing exactly if it is empty or starts with its initial
value.
-/
namespace HeaderDocs.Scan

structure Declarator where
  name : String
  type : Run
  initial : Option String
deriving DecidableEq, Repr

namespace Declarator

/-- The part of a run before its first equals sign. -/
def declaredPart (run : Run) : Run := run.takeWhile (·.text != "=")

/-- The value after the first equals sign. -/
def initial? (run : Run) : Option String :=
  match run.dropWhile (·.text != "=") with
  | [] => none
  | _ :: value => some (Run.text value)

/-- Where the name begins. A declarator that ends in a parenthesis has everything from its first
opening parenthesis on as its name; any other has its last fragment. -/
def nameStart (run : Run) (last : Fragment) : Nat :=
  if last.startsWith ')' then (run.findIdx? (·.startsWith '(')).getD (run.length - 1)
  else run.length - 1

def ofRun? (run : Run) : Option Declarator :=
  let declared := declaredPart run
  match declared.getLast? with
  | none => none
  | some last =>
    let start := nameStart declared last
    some {
      name := Run.text (declared.drop start)
      type := Run.closeUp (declared.take start)
      initial := initial? run }

/-- The node of a declarator: a variable or an argument, with its type as only child. -/
def toNode (kind : Kind) (d : Declarator) : Node :=
  { kind
    attrs := { name := some d.name, initial := d.initial }
    children := [d.type.toType] }

theorem ofRun?_eq_none_iff (run : Run) :
    ofRun? run = none ↔ run = [] ∨ ∃ rest, run.texts = "=" :: rest := by
  cases run with
  | nil => simp [ofRun?, declaredPart]
  | cons f fs =>
    by_cases h : f.text = "="
    · simp [ofRun?, declaredPart, h, Run.texts]
    · have : ∃ last, (f :: fs.takeWhile (·.text != "=")).getLast? = some last :=
        ⟨_, List.getLast?_eq_some_getLast (by simp)⟩
      obtain ⟨last, hlast⟩ := this
      simp [ofRun?, declaredPart, h, Run.texts, hlast]

end Declarator

end HeaderDocs.Scan
