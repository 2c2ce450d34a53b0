import HeaderDocs.Proofs.Scan.DeclaratorLists
import HeaderDocs.Proofs.Scan.FunctionHeader
import HeaderDocs.Proofs.Scan.Splitting

/-!
# Forward declarations

`struct foo;` says that there is a structure `foo`, and declares nothing. It is read as `int foo;` is:
as a variable `foo` of the type `struct`, which takes the comment that waits for the next declaration.

* `State.run_twoWords`: what two words and a semicolon declare after the end of a declaration.
* `children_eq_of_record_eq`: a node that is recorded tells what was recorded.
* `scan_forward`: what a forward declaration declares, and when that makes no difference.
-/
namespace HeaderDocs.Scan

open HeaderDocs.Text HeaderDocs.Node

/-! ## Two words -/

namespace Name

/-- A name for a type and another name, as a declaration on a line of its own. -/
def declare (type name : Name) : String := type.text ++ " " ++ name.text ++ ";\n"

def declarator (type name : Name) : Declarator :=
  { name := name.text, type := [⟨type.text, false⟩], initial := none }

/-- Whether a declaration that starts with the word can declare a variable. -/
def isTypeWord (w : Name) : Bool :=
  w.text != "typedef" && w.text != "static" && w.text != "extern" && !isAccess w.text

theorem ofRun?_declarator (type name : Name) :
    Declarator.ofRun? (Run.pushWord [⟨type.text, false⟩] name.text) =
      some (type.declarator name) := by
  have hequals : "=" ∉ Run.texts [⟨type.text, false⟩] := by
    simpa [Run.texts] using (type.text_ne (by decide)).symm
  have hclose : Fragment.startsWith ⟨name.text, true⟩ ')' = false := by
    have hnot := name.notMem (by decide : isWordChar ')' = false)
    unfold Fragment.startsWith
    simpa using fun he => hnot (List.mem_of_head? he)
  have hpushed : Run.pushWord [⟨type.text, false⟩] name.text =
      [⟨type.text, false⟩] ++ [⟨name.text, true⟩] :=
    Run.EndsInName.pushWord (Run.endsInName_concat [] type false) _
  rw [hpushed]
  exact ofRun?_named hequals ⟨name.text, true⟩ (name.text_ne (by decide)) hclose [] (by simp)

end Name

namespace State

variable {scope : OpenScope}

/-- Two words after the end of a declaration declare a variable, described by the comment that
waits, and leave the scope as at the start of a source. -/
theorem run_twoWords {left : Option String}
    (hcontext : scope.context = { Context.ofScope scope.node with comment := left })
    {type : Name} (htype : type.isTypeWord = true) (name : Name) :
    ∃ scope' : OpenScope, State.run { scope } (type.declare name).toList = { scope := scope' } ∧
      scope.Gains (scope.context.variableNode (type.declarator name)) scope' ∧
      scope'.context = .ofScope scope'.node := by
  simp only [Name.isTypeWord, Bool.and_eq_true, bne_iff_ne, Bool.not_eq_true'] at htype
  obtain ⟨⟨⟨htypedef, hstatic⟩, hextern⟩, haccess⟩ := htype
  have hleft : ∀ kind, isLeftOut kind type.text = false := fun kind => by
    simp [isLeftOut, hextern, hstatic]
  let c : Context := { Context.ofScope scope.node with comment := left }
  let typed : Context := { c with run := [⟨type.text, false⟩] }
  have hdeclares : c.Declares := ⟨rfl, rfl, rfl, rfl, rfl, rfl⟩
  have hstate : ({ scope } : State) = State.inContext { scope } c := by
    rw [State.inContext, ← show scope.context = c from hcontext]
  have htyped : State.run { scope } (type.declare name).toList =
      (State.inContext { scope } typed).run (name.toWord.text.toList ++ ';' :: ['\n']) := by
    have hread := run_word_collected (t := { scope }) hdeclares type.toWord
      (isWordPart_of_isSpace (show isSpace ' ' = true by decide) _)
      (fun _ _ => by rw [show type.toWord.text = type.text from rfl, type.withoutColons_text, haccess])
      (by simp) (by simp) (name.text.toList ++ ";\n".toList)
    rw [hstate, Name.declare]
    simp only [String.toList_append, List.append_assoc]
    exact hread
  obtain ⟨s, claim, hgains, hnamed⟩ := run_word_ends (t := { scope }) (c := typed)
    (hdeclares.withRun _ _ _) rfl (List.cons_ne_nil _ _) (by simp [typed])
    (fun he => htypedef (Option.some.inj he)) (hleft _) name.toWord
    (Name.ofRun?_declarator type name) (.inr rfl) ['\n']
  have hended : (State.inContext { scope := s } (typed.declared [] claim)).run [';', '\n'] =
      { scope := { s with context := .ofScope scope.node } } := by
    change ((State.inContext { scope := s } (typed.declared [] claim)).step ';').step '\n' = _
    rw [step_semicolon_nothing ⟨rfl, rfl, rfl, rfl, rfl, rfl⟩ rfl]
    rfl
  refine ⟨{ s with context := .ofScope scope.node }, htyped.trans (hnamed.trans hended), ?_, ?_⟩
  · rw [hcontext]
    exact ⟨hgains.node, hgains.origin, hgains.attached, hgains.suspended⟩
  · simp only [Context.ofScope, hgains.kind]

end State

/-! ## What is recorded -/

/-- Nodes of one kind and name that leave the same scope behind have the same children. -/
theorem children_eq_of_record_eq {scope a b : Node} (hkind : a.kind = b.kind) {name : String}
    (ha : a.name = some name) (hb : b.name = some name) (hrecordable : isRecordable name = true)
    (hpublic : a.isPrivate = false ∧ b.isPrivate = false) (h : record scope a = record scope b) :
    a.children = b.children := by
  obtain ⟨insA, hinsA, hrecordA⟩ := exists_record_eq scope hpublic.1 ha hrecordable
  obtain ⟨insB, hinsB, hrecordB⟩ := exists_record_eq scope hpublic.2 hb hrecordable
  have happly : insA.apply scope.children = insB.apply scope.children := by
    rw [hrecordA, hrecordB] at h
    exact congrArg children h
  -- both stand in the same place
  have hposition : insA.position = insB.position := by
    obtain ⟨nameA, hnameA, -, hreplacedA, hpositionA, -⟩ := insertion?_cases hinsA
    obtain ⟨nameB, hnameB, -, hreplacedB, hpositionB, -⟩ := insertion?_cases hinsB
    cases ha.symm.trans hnameA
    cases hb.symm.trans hnameB
    rw [hpositionA, hpositionB, Insertion.rest, Insertion.rest, hreplacedA, hreplacedB, hkind]
  have hnode : insA.node = insB.node := by
    have hgetB := getElem?_apply hinsB
    rw [← happly, ← hposition, getElem?_apply hinsA] at hgetB
    exact Option.some.inj hgetB
  rw [← (Insertion.node_eq hinsA).2, ← (Insertion.node_eq hinsB).2, hnode]

/-! ## Forward declarations -/

/-- The keywords that name a type without defining it. -/
inductive TagKeyword where
  | structTag
  | classTag
  | unionTag
  | enumTag
deriving DecidableEq, Repr

namespace TagKeyword

def text : TagKeyword → String
  | structTag => "struct"
  | classTag => "class"
  | unionTag => "union"
  | enumTag => "enum"

theorem isName_text (k : TagKeyword) : isName k.text.toList = true := by
  cases k <;> decide

def word (k : TagKeyword) : Name := ⟨k.text, k.isName_text⟩

end TagKeyword

namespace Name

variable (type name : Name)

/-- The variable that two words declare in a scope, described by the comment that waits before
them. -/
def variableNode (scope : Node) (left : Option String) : Node :=
  { Context.ofScope scope with comment := left : Context }.variableNode (type.declarator name)

theorem kind_variableNode (scope : Node) (left : Option String) :
    (type.variableNode name scope left).kind = .var ∧
      (type.variableNode name scope left).name = some name.text :=
  let ⟨hkind, hname, _⟩ := Context.variableNode_shows { Context.ofScope scope with comment := left }
    (type.declarator name)
  ⟨hkind, hname⟩

/-- Variables of one name that leave the same scope behind have the same children. -/
theorem children_variableNode_eq {name : Name} (hrecordable : isRecordable name.text = true)
    {first second : Name} {scope tree : Node} {left right : Option String}
    (hpublic : (first.variableNode name scope left).isPrivate = false ∧
      (second.variableNode name scope right).isPrivate = false)
    (h : record tree (first.variableNode name scope left) =
      record tree (second.variableNode name scope right)) :
    (first.variableNode name scope left).children =
      (second.variableNode name scope right).children := by
  obtain ⟨hkind, hname⟩ := first.kind_variableNode name scope left
  obtain ⟨hkind', hname'⟩ := second.kind_variableNode name scope right
  exact children_eq_of_record_eq (hkind.trans hkind'.symm) hname hname' hrecordable hpublic h

theorem isPrivate_variableNode (scope : Node) :
    (type.variableNode name scope none).isPrivate = false :=
  (by decide +kernel : Comment.isPrivate "" = false)

/-- A comment gives the variable a description, even if it says nothing. -/
theorem children_variableNode (scope : Node) :
    (type.variableNode name scope none).children = [Run.toType [⟨type.text, false⟩]] ∧
      ∀ raw, (type.variableNode name scope (some raw)).children.length = 2 :=
  ⟨rfl, fun _ => rfl⟩

end Name

section
variable {type : Name} (htype : type.isTypeWord = true)
include htype

theorem scan_declare (name : Name) (tree : Node) :
    scan (type.declare name) tree = record tree (type.variableNode name tree none) := by
  obtain ⟨scope, hrun, hgains, -⟩ :=
    @State.run_twoWords (.begin tree .source) none rfl _ htype name
  have hscan : scan (type.declare name) tree = scope.node := by
    unfold scan scanWithEvents State.start
    rw [hrun]
    rfl
  exact hscan.trans hgains.node

/-- Two words after the end of a declaration, and what comes after them. -/
theorem scan_append_declare (tree : Node) {before : String} (hends : EndsDeclaration before.toList)
    (haccess : tree.kind.isRecord = true →
      ((State.start tree).run before.toList).scope.context.access = (Context.ofScope tree).access)
    (name : Name) (after : String) :
    scan (before ++ type.declare name ++ after) tree =
      scan after (record (scan before tree) (type.variableNode name (scan before tree)
        ((State.start tree).run before.toList).scope.context.comment)) := by
  obtain ⟨text, hbefore, hbalanced⟩ := hends
  rw [hbefore] at haccess
  obtain ⟨scope, hrun, horigin, hcontext, hsuspended⟩ :=
    State.run_boundary_waiting tree hbalanced haccess
  rw [← hbefore] at hrun hcontext
  have hscanned : scan before tree = scope.node := by
    unfold scan scanWithEvents
    rw [hrun]
    rfl
  obtain ⟨scope', hrun', hgains, hcontext'⟩ := State.run_twoWords hcontext htype name
  have hresult := State.result_of_boundary (hgains.origin.trans horigin) hcontext'
    (hgains.suspended hsuspended) after
  rw [hgains.node, hcontext] at hresult
  rw [hscanned, Name.variableNode, ← hresult, ← hrun', ← hrun, ← State.run_append, ← State.run_append,
    ← String.toList_append, ← String.toList_append, String.append_assoc]
  rfl

end

/-- Whether a comment waited shows in what two words declare, or in that it hides them. -/
theorem eq_none_of_record_eq {first second : Name} (hne : first.text ≠ second.text) {name : Name}
    (hrecordable : isRecordable name.text = true) {tree : Node} {left : Option String}
    (h : ∀ w ∈ [first, second], record tree (w.variableNode name tree none) =
      record tree (w.variableNode name tree left)) : left = none := by
  cases left with
  | none => rfl
  | some raw =>
    have hprivate : ∀ w ∈ [first, second],
        (w.variableNode name tree (some raw)).isPrivate = true := by
      intro w hw
      by_contra hpublic
      have hchildren := Name.children_variableNode_eq hrecordable
        ⟨w.isPrivate_variableNode name tree, Bool.eq_false_iff.mpr hpublic⟩ (h w hw)
      have hlength := congrArg List.length hchildren
      rw [(w.children_variableNode name tree).2 raw, (w.children_variableNode name tree).1] at hlength
      cases hlength
    have hhidden : ∀ w ∈ [first, second], record tree (w.variableNode name tree none) = tree :=
      fun w hw => (h w hw).trans (if_pos (hprivate w hw))
    have hchildren := Name.children_variableNode_eq hrecordable
      ⟨first.isPrivate_variableNode name tree, second.isPrivate_variableNode name tree⟩
      ((hhidden first (by simp)).trans (hhidden second (by simp)).symm)
    refine absurd ?_ hne
    simpa [(Name.children_variableNode _ name tree).1, Run.toType, Fragment.toNode, word] using hchildren

/-- A forward declaration after the end of a declaration declares a variable of the type that its
keyword names, and uses the comment up that waits. It makes no difference exactly if no comment waits
and the variable is not recorded, or as it was before. -/
theorem scan_forward (tree : Node) (before : String) (hends : EndsDeclaration before.toList)
    (haccess : tree.kind.isRecord = true →
      ((State.start tree).run before.toList).scope.context.access = (Context.ofScope tree).access)
    (k : TagKeyword) (tag : Name) :
    let read := scan before tree
    let left := ((State.start tree).run before.toList).scope.context.comment
    let forward := k.word.declare tag
    (∀ after, scan (before ++ forward ++ after) tree =
        scan after (record read (k.word.variableNode tag read left))) ∧
      ((∀ after, scan (before ++ forward ++ after) tree = scan (before ++ after) tree) ↔
        left = none ∧ record read (k.word.variableNode tag read none) = read) := by
  have hkeyword : k.word.isTypeWord = true := by cases k <;> decide +kernel
  intro read left forward
  have hforward : ∀ after, scan (before ++ forward ++ after) tree =
      scan after (record read (k.word.variableNode tag read left)) := fun after =>
    scan_append_declare hkeyword tree hends haccess tag after
  refine ⟨hforward, fun h => ?_, fun ⟨hnone, hsame⟩ after => ?_⟩
  · have hrecorded : record read (k.word.variableNode tag read left) = read :=
      (hforward "").symm.trans ((h "").trans (congrArg (scan · tree) String.append_empty))
    let int : Name := ⟨"int", by decide⟩
    let long : Name := ⟨"long", by decide⟩
    let next : Name := ⟨"y", by decide⟩
    -- what comes next shows whether the comment still waits
    have hnext : ∀ w ∈ [int, long], record read (w.variableNode next read none) =
        record read (w.variableNode next read left) := by
      intro w hw
      have hword : w.isTypeWord = true := by
        simp only [List.mem_cons, List.not_mem_nil, or_false] at hw
        rcases hw with rfl | rfl <;> decide +kernel
      have hafter := h (w.declare next)
      rw [hforward, hrecorded, scan_declare hword] at hafter
      have hbefore := scan_append_declare hword tree hends haccess next ""
      rw [String.append_empty] at hbefore
      exact hafter.trans hbefore
    have hleft := eq_none_of_record_eq (by decide) (by decide +kernel) hnext
    exact ⟨hleft, hleft ▸ hrecorded⟩
  · obtain ⟨text, hbefore, hbalanced⟩ := hends
    rw [hbefore] at haccess
    obtain ⟨scope, hrun, horigin, hcontext, hsuspended⟩ :=
      State.run_boundary tree hbalanced (by rw [← hbefore]; exact hnone) haccess
    have hread : read = scope.node := by
      unfold read scan scanWithEvents
      rw [hbefore, hrun]
      rfl
    rw [hforward, hnone, hsame, hread, ← State.result_of_boundary horigin hcontext hsuspended, ← hrun,
      ← hbefore, ← State.run_append, ← String.toList_append]
    rfl

/-- A hidden name after a source that leaves no comment. -/
theorem scan_forward_hidden :
    EndsDeclaration "int y;\n".toList ∧
      scan ("int y;\n" ++ TagKeyword.structTag.word.declare ⟨"_X", by decide⟩ ++ "int z;") .empty =
        scan ("int y;\n" ++ "int z;") .empty := by
  have hends : EndsDeclaration "int y;\n".toList := ⟨"int y".toList, by decide, by decide +kernel⟩
  have hforward := scan_forward .empty "int y;\n" hends nofun .structTag ⟨"_X", by decide⟩
  exact ⟨hends, hforward.2.mpr ⟨by decide +kernel, record_of_not_recordable rfl (by decide)⟩ "int z;"⟩

/-- A forward declaration declares a variable. -/
theorem scan_forward_variable :
    EndsDeclaration "int y;\n".toList ∧
      scan ("int y;\n" ++ TagKeyword.structTag.word.declare ⟨"X", by decide⟩ ++ "") .empty ≠
        scan ("int y;\n" ++ "") .empty := by
  refine ⟨⟨"int y".toList, by decide, by decide +kernel⟩, fun h => ?_⟩
  exact absurd (congrArg (·.children.map (·.name)) h) (by decide +kernel)

end HeaderDocs.Scan
