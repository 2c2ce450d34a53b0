import HeaderDocs.Proofs.Scan.Blocks
import HeaderDocs.Proofs.Scan.MemberVariables

/-!
# Bodies of records

A record is recorded before its body is read, if it has a name, and kept aside otherwise. What is read
in the body is put into its node, and the brace behind the body puts the node where it was.

* `State.beginRecord_named`, `State.beginRecord_unnamed`: the scope around a body that begins.
* `State.step_closesRecord`: the brace behind a body.
-/
namespace HeaderDocs.Scan

open HeaderDocs.Text

/-! ## Keywords -/

inductive RecordKeyword
  | classType
  | structType
  | unionType
deriving DecidableEq

namespace RecordKeyword

def text : RecordKeyword → String
  | classType => "class"
  | structType => "struct"
  | unionType => "union"

theorem isName_text (k : RecordKeyword) : isName k.text.toList = true := by
  cases k <;> decide

def name (k : RecordKeyword) : Name := ⟨k.text, k.isName_text⟩

def kind : RecordKeyword → Kind
  | classType => .classType
  | structType => .structType
  | unionType => .unionType

/-- The access of members before any specifier. -/
def access : RecordKeyword → Option String
  | classType => some "private"
  | _ => none

variable (k : RecordKeyword)

theorem recordKind?_name : State.recordKind? k.name.text = some k.kind := by
  cases k <;> rfl

theorem isScope_kind : k.kind.isScope = true := by
  cases k <;> rfl

theorem isRecord_kind : k.kind.isRecord = true := by
  cases k <;> rfl

theorem isAccess_name : isAccess k.name.text = false := by
  cases k <;> decide

theorem name_ne_typedef : k.name.text ≠ "typedef" := by
  cases k <;> decide

theorem ofScope_eq {node : Node} (h : node.kind = k.kind) :
    Context.ofScope node = { access := k.access } := by
  unfold Context.ofScope
  rw [h]
  cases k <;> rfl

end RecordKeyword

namespace State

/-! ## Before a body -/

/-- A brace behind words that begin with the keyword of a record. -/
theorem openBrace_record {t : State} (hheader : t.scope.context.header = none) {aliased : Bool}
    {run : Run} (hsplit : splitAlias t.scope.context.run = (aliased, run)) {k : RecordKeyword}
    (hfirst : run.texts.head? = some k.name.text) :
    t.openBrace = t.openRecord k.kind aliased run := by
  have hkind : recordKind? (run.texts.headD "") = some k.kind := by
    rw [List.headD_eq_head?_getD, hfirst]
    exact k.recordKind?_name
  unfold openBrace
  dsimp only
  rw [hsplit, hheader]
  dsimp only
  rw [hkind]

/-- The node of a record whose body begins. -/
def openedNode (kind : Kind) (aliased : Bool) (run : Run) (raw? : Option String) : Node :=
  Node.describe
    { kind
      attrs :=
        { name := (run.texts[1]?).map withoutColons
          base := if aliased then none else baseOf? (run.texts.drop 2) } } (raw?.getD "")

variable {kind : Kind} {aliased : Bool} {run : Run} {raw? : Option String}

theorem children_openedNode : (openedNode kind aliased run raw?).children =
    [Node.descriptionOf (Comment.normalize (raw?.getD "")).text] := by
  unfold openedNode Node.describe
  dsimp only
  split <;> rfl

theorem kind_openedNode : (openedNode kind aliased run raw?).kind = kind :=
  Node.kind_describe _ _

theorem kept_openedNode : (openedNode kind aliased run raw?).Kept :=
  (kept_leaf kind _).describe _

theorem isPrivate_openedNode : (openedNode kind aliased run raw?).isPrivate =
    Comment.isPrivate (Comment.normalize (raw?.getD "")).text := by
  rw [Node.isPrivate, Node.descriptionText, Node.child?, children_openedNode]
  exact congrArg Comment.isPrivate (Node.text_descriptionOf _)

theorem name_openedNode :
    (openedNode kind aliased run raw?).name = (run.texts[1]?).map withoutColons := by
  unfold openedNode Node.describe
  dsimp only
  split <;> rfl

end State

/-- The context around a body: the record is at the place, and what is declared behind it waits. -/
def Context.around (c : Context) (aliased : Bool) (run : Run) (p : Place) : Context :=
  { (if aliased then { c with run := run.closeUp } else c.dropRun) with
    comment := none
    joinable := false
    typeAlias := State.aliasOf aliased c.comment
    record := some p
    claim := none }

namespace State

variable {s : OpenScope} {c : Context}

/-- The context in which the node of a record is recorded. -/
def recordContext (aliased : Bool) (run : Run) (c : Context) : Context :=
  { (if aliased then { c with run := run.closeUp } else c.dropRun).takeComment with
    typeAlias := aliasOf aliased c.comment }

/-- Where the record is depends on what recording its node answers, and on nothing else. -/
theorem beginRecord_eq (kind : Kind) (aliased : Bool) (run : Run)
    {committed : OpenScope × Option Path}
    (h : ({ s with context := recordContext aliased run c } : OpenScope).commitNamed
      (openedNode kind aliased run c.comment) = committed) :
    beginRecord kind aliased run { s with context := c } =
      let node := openedNode kind aliased run c.comment
      let p := OpenScope.placeOf node committed.2
      (committed.1.update ({ · with record := some p, claim := none }),
        (p.node? committed.1.node).getD node) := by
  rw [← h]
  rfl

/-- A record without a public name is kept aside. -/
theorem beginRecord_unnamed (kind : Kind) (aliased : Bool) (run : Run)
    (hpublic : (openedNode kind aliased run c.comment).isPrivate = false)
    (hname : ∀ name, (openedNode kind aliased run c.comment).name = some name →
      Node.isRecordable name = false) :
    beginRecord kind aliased run { s with context := c } =
      ({ s with context := c.around aliased run (.aside (openedNode kind aliased run c.comment)) },
        openedNode kind aliased run c.comment) := by
  let node := openedNode kind aliased run c.comment
  let begun : OpenScope := { s with context := recordContext aliased run c }
  have hrefused : s.node.insertion? node = none :=
    Option.map_eq_none_iff.mp ((Node.insert?_eq_none_iff _ node).mpr hname)
  have hcommit : begun.commitNamed node = (begun, none) := by
    unfold OpenScope.commitNamed
    split
    · rfl
    · unfold OpenScope.commit OpenScope.commitTo
      dsimp only
      rw [if_neg (by simp [node, hpublic]),
        show (begun.node.get? []).bind (·.insertion? node) = none from hrefused]
  rw [beginRecord_eq kind aliased run hcommit]
  cases aliased <;> rfl

theorem beginRecord_named (kind : Kind) (aliased : Bool) (run : Run) (hc : c.Declares)
    (hpublic : (openedNode kind aliased run c.comment).isPrivate = false) {name : String}
    (hname : (openedNode kind aliased run c.comment).name = some name)
    (hrecordable : Node.isRecordable name = true) :
    ∃ s' i home, s.Gains (openedNode kind aliased run c.comment) s' ∧
      s'.node.children[i]? = some home ∧
      home.key = (openedNode kind aliased run c.comment).key ∧
      home.children = (openedNode kind aliased run c.comment).children ∧
      beginRecord kind aliased run { s with context := c } =
        ({ s' with context := c.around aliased run (.inScope i) }, home) := by
  let node := openedNode kind aliased run c.comment
  let c' := recordContext aliased run c
  let begun : OpenScope := { s with context := c' }
  obtain ⟨i, home, hpath, hhome, hkey, hchildren⟩ := exists_commit begun hpublic hname hrecordable
  have hrefs : c'.header = none ∧ c'.record = none ∧ c'.enumeration = none := by
    dsimp only [c', recordContext]
    cases aliased <;> exact ⟨hc.header, hc.record, hc.enumeration⟩
  obtain ⟨claim, hcontext⟩ := context_commit (s := s) (c := c') hrefs.1 hrefs.2.1 hrefs.2.2 node
  have hgains := OpenScope.gains_commit begun node
  have hnamed : begun.commitNamed node = begun.commit node :=
    begun.commitNamed_of_recordable hname hrecordable
  refine ⟨(begun.commit node).1, i, home,
    ⟨hgains.node, hgains.origin, hgains.attached, hgains.suspended⟩, hhome, hkey, hchildren, ?_⟩
  have hplace : (Place.inScope i).node? (begun.commit node).1.node = some home := hhome
  rw [beginRecord_eq kind aliased run hnamed]
  dsimp only
  rw [hpath, show OpenScope.placeOf node (some [i]) = .inScope i from rfl, hplace,
    OpenScope.update, hcontext]
  cases aliased <;> rfl

/-! ## Behind a body -/

theorem step_closesRecord (inner outer : OpenScope) (enclosing : List OpenScope) {p : Place}
    (horigin : inner.origin = .record) (hattached : inner.attached = true)
    (hsuspended : inner.suspended = []) (hbraces : inner.context.braces = 0)
    (hplace : outer.context.record = some p) :
    ∃ s : OpenScope, s.node = p.fillIn inner.node outer.node ∧ outer.SamePlace s ∧
      ({ scope := inner, enclosing := outer :: enclosing } : State).step '\x7d' =
        { scope := { s with context := { outer.context with record := some (p.fill inner.node) } }
          enclosing } := by
  obtain ⟨f, hstep⟩ := step_closing_brace
    (s := { scope := inner, enclosing := outer :: enclosing }) rfl hbraces
  have hpop : (({ scope := inner, enclosing := outer :: enclosing } : State).update
      (·.update f)).pop = { scope := putBack (inner.update f) outer, enclosing } := by
    unfold pop
    simp only [update, OpenScope.update, hsuspended]
  rw [hstep, hpop]
  have hputBack : putBack (inner.update f) outer =
      { outer with
        node := p.fillIn inner.node outer.node
        events := outer.events ++ inner.events
        context := { outer.context with record := some (p.fill inner.node) } } := by
    unfold putBack
    simp only [OpenScope.update, horigin, hplace]
    cases p with
    | inScope i =>
      simp only [hattached, if_true]
      simp [OpenScope.modifyAt, Place.fillIn, Place.fill, ← hplace]
    | aside node => rfl
  exact ⟨{ outer with
    node := p.fillIn inner.node outer.node, events := outer.events ++ inner.events }, rfl,
    ⟨rfl, rfl, id⟩, by rw [hputBack]⟩

end State

end HeaderDocs.Scan
