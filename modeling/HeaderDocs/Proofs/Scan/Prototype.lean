import HeaderDocs.Proofs.Scan.Nesting
import HeaderDocs.Proofs.Tree.Arrangement
import HeaderDocs.Reference.Signature
import HeaderDocs.Scan.Fragment

/-!
# Function prototypes

A `Prototype` is the declaration of a function in its plainest form: a type, a name, and parameters
that each have a type, a name and perhaps a default. A type is a row of identifiers and stars. The
identifiers, and the conditions on what a function returns, are checked by the structures.

`Prototype.toNode` is the node of such a function with its comment, and `Prototype.DocumentedBy` says
what can be read off that node:

* `documentedBy_toNode`: the node has the type that is returned, the parameters in order, the text of
  the comment, and the prototype as its signature.
-/
namespace HeaderDocs.Scan

open HeaderDocs.Text

/-! ## What a prototype is made of -/

def isAsciiWordChar (c : Char) : Bool := isAsciiLetter c || isAsciiDigit c || c == '_'

/-- A letter, and then letters, digits and underscores. -/
def isIdentifier : List Char → Bool
  | [] => false
  | c :: cs => isAsciiLetter c && cs.all isAsciiWordChar

def isDecimal (cs : List Char) : Bool := !cs.isEmpty && cs.all isAsciiDigit

structure PlainWord where
  text : String
  valid : (isIdentifier text.toList || isDecimal text.toList) = true
deriving DecidableEq

structure Identifier extends PlainWord where
  isIdentifier : Scan.isIdentifier text.toList = true
deriving DecidableEq

def Identifier.ofText (text : String) (h : Scan.isIdentifier text.toList = true) : Identifier :=
  { text, valid := by rw [h]; rfl, isIdentifier := h }

/-- A row of identifiers, and then stars. -/
structure WrittenType where
  words : List Identifier
  stars : Nat := 0
  words_ne_nil : words ≠ []
deriving DecidableEq

structure Parameter where
  type : WrittenType
  name : Identifier
  default : Option PlainWord := none
deriving DecidableEq

def WrittenType.texts (t : WrittenType) : List String := t.words.map (·.text)

/-- The declaration of a function. Its type neither starts with a word that makes it another kind of
declaration, nor ends in `void` after other words. -/
structure Prototype where
  result : WrittenType
  name : Identifier
  parameters : List Parameter := []
  leads : result.texts.head? ∉ [some "typedef", some "static", some "extern"]
  returns : result.stars = 0 → result.texts.getLast? = some "void" → result.texts = ["void"]
deriving DecidableEq

/-! ## How a prototype is written -/

def starText (n : Nat) : String := String.ofList (List.replicate n '*')

namespace WrittenType

def text (t : WrittenType) : String :=
  String.intercalate " " t.texts ++ if t.stars = 0 then "" else " " ++ starText t.stars

/-- The declaration of a name. The stars stand at the name. -/
def declare (t : WrittenType) (name : String) : String :=
  String.intercalate " " t.texts ++ " " ++ starText t.stars ++ name

def isVoid (t : WrittenType) : Bool := t.stars == 0 && t.texts == ["void"]

end WrittenType

def Parameter.text (p : Parameter) : String :=
  p.type.declare p.name.text ++ match p.default with
    | some value => " = " ++ value.text
    | none => ""

def Prototype.text (p : Prototype) : String :=
  p.result.declare p.name.text ++ "(" ++
    (if p.parameters.isEmpty then "void" else String.intercalate ", " (p.parameters.map (·.text))) ++
    ");"

/-! ## The node of a function -/

/-- The fragments of a row of stars, of which the first is separated from the word before. -/
def starRun : Nat → Run
  | 0 => []
  | n + 1 => ⟨"*", true⟩ :: List.replicate n ⟨"*", false⟩

def WrittenType.toRun (t : WrittenType) : Run :=
  Run.closeUp (t.texts.map (⟨·, true⟩)) ++ starRun t.stars

def Parameter.toNode (p : Parameter) : Node :=
  { kind := .argument
    attrs := { name := some p.name.text, initial := p.default.map (·.text) }
    children := [p.type.toRun.toType] }

namespace Prototype

/-- The node of what a function returns, if it returns anything. -/
def result? (p : Prototype) : Option Node :=
  if p.result.isVoid then none
  else some { kind := .result, children := [p.result.toRun.toType, Node.descriptionOf ""] }

/-- The node of a function that is described by a comment. -/
def toNode (p : Prototype) (comment : String) : Node :=
  { kind := .function
    attrs := { name := some p.name.text }
    children := p.result?.toList ++ Node.descriptionOf (Comment.normalize comment).text ::
      p.parameters.map (·.toNode) }

/-- A node that documents a function among the children of `owner`. -/
structure DocumentedBy (p : Prototype) (comment : String) (owner n : Node) : Prop where
  kind : n.kind = .function
  name : n.name = some p.name.text
  unscoped : n.scope = none
  result : (n.child? .result).map (·.typeText) =
    if p.result.isVoid then none else some p.result.text
  parameters : (n.childrenOf .argument).map (fun a => (a.name, a.typeText, a.attrs.initial)) =
    p.parameters.map fun a => (some a.name.text, a.type.text, a.default.map (·.text))
  description : n.descriptionText = (Comment.normalize comment).text
  signature : n.functionSignature (some owner) = p.text

end Prototype

/-! ## Characters of words -/

theorem isAsciiWordChar_of_isIdentifier {cs : List Char} (h : isIdentifier cs = true) :
    cs ≠ [] ∧ ∀ c ∈ cs, isAsciiWordChar c = true := by
  cases cs with
  | nil => cases h
  | cons c cs =>
    simp only [isIdentifier, Bool.and_eq_true, List.all_eq_true] at h
    refine ⟨List.cons_ne_nil _ _, fun d hd => ?_⟩
    obtain rfl | hd := List.mem_cons.mp hd
    · simp [isAsciiWordChar, h.1]
    · exact h.2 d hd

theorem PlainWord.chars (w : PlainWord) :
    w.text.toList ≠ [] ∧ ∀ c ∈ w.text.toList, isAsciiWordChar c = true := by
  rcases Bool.or_eq_true _ _ ▸ w.valid with h | h
  · exact isAsciiWordChar_of_isIdentifier h
  · simp only [isDecimal, Bool.and_eq_true, Bool.not_eq_true', List.isEmpty_eq_false_iff,
      List.all_eq_true] at h
    exact ⟨h.1, fun c hc => by simp [isAsciiWordChar, h.2 c hc]⟩

theorem PlainWord.notMem (w : PlainWord) {c : Char} (hc : isAsciiWordChar c = false) :
    c ∉ w.text.toList := by
  intro hm
  rw [w.chars.2 c hm] at hc
  cases hc

/-! ## Texts -/

section

open Node

theorem append_foldr_separated (first : String) (rest : List String) (after : String) :
    first ++ ((rest.map fun w => Fragment.toNode ⟨w, true⟩).foldr joinText.separated after) =
      String.intercalate " " (first :: rest) ++ after := by
  induction rest generalizing first with
  | nil => rw [String.intercalate_singleton]; rfl
  | cons w rest ih =>
    rw [List.map_cons, List.foldr_cons, String.intercalate_cons_cons, String.append_assoc, ← ih w]
    simp [joinText.separated, Fragment.toNode, word, String.append_assoc]

theorem starText_succ (n : Nat) : starText (n + 1) = "*" ++ starText n := by
  rw [starText, List.replicate_succ, ← List.singleton_append, String.ofList_append]
  rfl

theorem foldr_separated_stars (n : Nat) :
    ((List.replicate n (⟨"*", false⟩ : Fragment)).map Fragment.toNode).foldr joinText.separated "" =
      starText n := by
  induction n with
  | zero => rfl
  | succ n ih =>
    rw [List.replicate_succ, List.map_cons, List.foldr_cons, ih, starText_succ]
    rfl

theorem foldr_separated_starRun (n : Nat) :
    ((starRun n).map Fragment.toNode).foldr joinText.separated "" =
      if n = 0 then "" else " " ++ starText n := by
  cases n with
  | zero => rfl
  | succ n =>
    rw [starRun, List.map_cons, List.foldr_cons, foldr_separated_stars, if_neg (Nat.succ_ne_zero n),
      starText_succ, ← String.append_assoc]
    rfl

/-- The first word is not separated from anything. -/
theorem WrittenType.toRun_eq (t : WrittenType) : ∃ (first : Identifier) (rest : List Identifier),
    t.words = first :: rest ∧
      t.toRun = ⟨first.text, false⟩ :: (rest.map (⟨·.text, true⟩) ++ starRun t.stars) := by
  obtain ⟨first, rest, hwords⟩ := List.exists_cons_of_ne_nil t.words_ne_nil
  refine ⟨first, rest, hwords, ?_⟩
  simp [toRun, texts, hwords, Run.closeUp, Function.comp_def]

theorem WrittenType.text_toRun (t : WrittenType) : Run.text t.toRun = t.text := by
  obtain ⟨first, rest, hwords, hrun⟩ := t.toRun_eq
  have htexts : t.texts = first.text :: rest.map (·.text) := by rw [texts, hwords, List.map_cons]
  unfold Run.text text
  rw [hrun, htexts, ← foldr_separated_starRun, ← append_foldr_separated]
  simp [joinText, Fragment.toNode, word, Function.comp_def]

theorem Run.text_toType (run : Run) : run.toType.text = Run.text run := by
  have hall : (run.map Fragment.toNode).filter (·.kind.isText) = run.map Fragment.toNode := by
    rw [List.filter_eq_self]
    intro n hn
    obtain ⟨f, -, rfl⟩ := List.mem_map.mp hn
    rfl
  rw [Node.text, Run.toType, hall]
  rfl

theorem exists_append_intercalate {words : List Identifier} (hw : words ≠ []) :
    ∃ before, ∃ last ∈ words,
      String.intercalate " " (words.map (·.text)) = before ++ last.text := by
  induction words with
  | nil => exact absurd rfl hw
  | cons first rest ih =>
    cases rest with
    | nil => exact ⟨"", first, List.mem_cons_self, by simp⟩
    | cons second rest =>
      obtain ⟨before, last, hm, he⟩ := ih (List.cons_ne_nil _ _)
      refine ⟨first.text ++ " " ++ before, last, List.mem_cons_of_mem _ hm, ?_⟩
      rw [List.map_cons] at he
      rw [List.map_cons, List.map_cons, String.intercalate_cons_cons, he, String.append_assoc]
      simp [String.append_assoc]

/-- A type ends in a star if it has one, and in a part of a word otherwise. -/
theorem WrittenType.getLast?_text (t : WrittenType) : ∃ last, t.text.toList.getLast? = some last ∧
    (last == '*' || last == '&') = !(t.stars == 0) := by
  unfold text
  cases hstars : t.stars with
  | zero =>
    obtain ⟨before, word, -, he⟩ := exists_append_intercalate t.words_ne_nil
    obtain ⟨hne, hchars⟩ := word.chars
    refine ⟨_, by rw [if_pos rfl, texts, he, String.append_empty, String.toList_append,
      List.getLast?_append_of_ne_nil _ hne, List.getLast?_eq_some_getLast hne], ?_⟩
    have hmarks : word.text.toList.getLast hne ∉ ['*', '&'] :=
      notMem_of_class (by decide) (hchars _ (List.getLast_mem hne))
    simpa using hmarks
  | succ n =>
    refine ⟨'*', ?_, rfl⟩
    rw [if_neg (Nat.succ_ne_zero n), ← String.append_assoc, String.toList_append, starText,
      String.toList_ofList, List.getLast?_append_of_ne_nil _ (by simp), List.getLast?_replicate,
      if_neg (Nat.succ_ne_zero n)]

/-- A name that a type declares stands directly behind the last star, and otherwise behind a
space. -/
theorem WrittenType.joinDeclared_text (t : WrittenType) (name : String) :
    joinDeclared t.text name = t.declare name := by
  obtain ⟨last, hlast, hstar⟩ := t.getLast?_text
  unfold joinDeclared
  rw [hlast]
  dsimp only
  rw [hstar]
  unfold text declare
  cases t.stars with
  | zero => simp [starText]
  | succ n => simp [String.append_assoc]

end

/-! ## What the node of a function shows -/

theorem typeText_toNode (p : Parameter) : p.toNode.typeText = p.type.text := by
  change p.type.toRun.toType.text = _
  rw [Run.text_toType, WrittenType.text_toRun]

theorem PlainWord.text_ne_empty (w : PlainWord) : w.text ≠ "" :=
  fun he => w.chars.1 (by rw [he]; rfl)

theorem Parameter.text_ne_empty (p : Parameter) : p.text ≠ "" := by
  intro he
  have hlist := congrArg String.toList he
  simp only [text, WrittenType.declare, String.toList_append, String.toList_empty,
    List.append_eq_nil_iff] at hlist
  exact p.name.chars.1 hlist.1.2

theorem WrittenType.text_of_isVoid (t : WrittenType) (h : t.isVoid = true) : t.text = "void" := by
  simp only [isVoid, Bool.and_eq_true, beq_iff_eq] at h
  rw [text, h.1, h.2]
  rfl

theorem Parameter.declared_toNode (p : Parameter) :
    withInitial (joinDeclared p.toNode.typeText (p.toNode.name.getD "")) p.toNode.attrs.initial =
      p.text := by
  rw [typeText_toNode, WrittenType.joinDeclared_text, show p.toNode.name.getD "" = p.name.text from rfl]
  unfold withInitial Parameter.text
  cases hd : p.default with
  | none => simp [toNode, hd]
  | some value =>
    have hne : value.text.isEmpty = false := by simpa using value.text_ne_empty
    simp [toNode, hd, hne, String.append_assoc]

namespace Prototype

variable (p : Prototype) (comment : String)

theorem childrenOf_argument_toNode :
    (p.toNode comment).childrenOf .argument = p.parameters.map (·.toNode) := by
  have hall : (p.parameters.map (·.toNode)).filter (Node.isKind .argument) =
      p.parameters.map (·.toNode) := by
    rw [List.filter_eq_self]
    intro n hn
    obtain ⟨a, -, rfl⟩ := List.mem_map.mp hn
    rfl
  unfold Node.childrenOf toNode result?
  split <;> simp [hall, Node.isKind, Node.descriptionOf]

theorem child?_result_toNode : (p.toNode comment).child? .result = p.result? := by
  have hnone : (p.parameters.map (·.toNode)).find? (Node.isKind .result) = none := by
    rw [List.find?_eq_none]
    intro n hn
    obtain ⟨a, -, rfl⟩ := List.mem_map.mp hn
    exact Bool.false_ne_true
  unfold Node.child? toNode result?
  split <;> simp [hnone, Node.isKind, Node.descriptionOf]

theorem descriptionText_toNode :
    (p.toNode comment).descriptionText = (Comment.normalize comment).text := by
  have hchild : (p.toNode comment).child? .description =
      some (.descriptionOf (Comment.normalize comment).text) := by
    unfold Node.child? toNode result?
    split <;> simp [Node.isKind, Node.descriptionOf]
  rw [Node.descriptionText, hchild]
  exact Node.text_descriptionOf _

theorem typeText_result? :
    p.result?.map (·.typeText) = if p.result.isVoid then none else some p.result.text := by
  unfold result?
  split
  · rfl
  · change some p.result.toRun.toType.text = _
    rw [Run.text_toType, WrittenType.text_toRun]

theorem argumentList_toNode : (p.toNode comment).argumentList =
    if p.parameters.isEmpty then "void" else String.intercalate ", " (p.parameters.map (·.text)) := by
  have hlist : ((p.toNode comment).childrenOf .argument).map (fun a =>
      withInitial (joinDeclared a.typeText (a.name.getD "")) a.attrs.initial) =
        p.parameters.map (·.text) := by
    rw [childrenOf_argument_toNode, List.map_map]
    exact List.map_congr_left fun a _ => a.declared_toNode
  have hblank : (p.parameters.map (·.text) == [""]) = false := by
    rw [beq_eq_false_iff_ne]
    intro he
    obtain ⟨a, -, ha⟩ := List.mem_map.mp (he.symm ▸ List.mem_singleton_self "")
    exact a.text_ne_empty ha
  unfold Node.argumentList
  rw [hlist]
  simp [hblank]

theorem functionSignature_toNode {owner : Node} (ho : owner.kind = .root) :
    (p.toNode comment).functionSignature (some owner) = p.text := by
  have htext : joinDeclared p.result.text ((p.toNode comment).shownName ++ "(" ++
      (p.toNode comment).argumentList ++ ");") = p.text := by
    rw [argumentList_toNode, WrittenType.joinDeclared_text]
    simp only [text, WrittenType.declare, String.append_assoc]
    rfl
  have htype := p.typeText_result?
  unfold Node.functionSignature
  rw [child?_result_toNode]
  by_cases hvoid : p.result.isVoid = true
  · rw [if_pos hvoid, Option.map_eq_none_iff] at htype
    rw [p.result.text_of_isVoid hvoid] at htext
    simpa [htype, Node.isConstructorOf, ho] using htext
  · rw [if_neg hvoid] at htype
    obtain ⟨result, hsome, hresult⟩ := Option.map_eq_some_iff.mp htype
    rw [← hresult] at htext
    simpa [hsome] using htext

theorem documentedBy_toNode {owner : Node} (ho : owner.kind = .root) :
    p.DocumentedBy comment owner (p.toNode comment) where
  kind := rfl
  name := rfl
  unscoped := rfl
  result := by rw [child?_result_toNode, typeText_result?]
  parameters := by
    rw [childrenOf_argument_toNode, List.map_map]
    refine List.map_congr_left fun a _ => ?_
    simp only [Function.comp_apply, typeText_toNode]
    rfl
  description := p.descriptionText_toNode comment
  signature := p.functionSignature_toNode comment ho

end Prototype

end HeaderDocs.Scan
