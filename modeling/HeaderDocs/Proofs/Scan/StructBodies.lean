import HeaderDocs.Proofs.Scan.Blocks
import HeaderDocs.Proofs.Scan.DeclaratorEnds
import HeaderDocs.Proofs.Scan.EnumerationConstants

/-!
# Bodies of structures

What is read in the body of a structure is put into its node, and the brace that closes the body puts
the node back where it was recorded.

* `State.run_structOpening`, `State.run_structClosing`: what stands around the body.
* `scan_struct`: a source that is one structure.
-/
namespace HeaderDocs.Scan

open HeaderDocs.Text

/-- A structure before its body, without a comment. -/
def structNode (name : String) : Node :=
  Node.describe { kind := .structType, attrs := { name := some name } } ""

theorem structNode_eq (name : String) : structNode name =
    { kind := .structType, attrs := { name := some name }, children := [Node.descriptionOf ""] } := by
  have hnormal : (Comment.normalize "").text = "" := by rw [Comment.normalize_empty]
  unfold structNode
  rw [describe_undescribed (by decide : Kind.structType ≠ .argument) (by simp), hnormal]
  rfl

/-- The first member of a structure stands behind its description. -/
theorem record_structNode (tag : String) {n : Node} (hpublic : n.isPrivate = false)
    {name : String} (hname : n.name = some name) (hrecordable : Node.isRecordable name = true) :
    record (structNode tag) n = (structNode tag).push n := by
  have hins : (structNode tag).insert? n = some ((structNode tag).push n) := by
    simp [Node.insert?, Node.insertion?, hname, hrecordable, structNode_eq, Node.Insertion.apply,
      Node.isNamed, Node.sortsAfter, Node.push, Node.withChildren, List.findIdx_cons]
  simp [record, hpublic, hins]

def structText (name : Name) (body : String) : String :=
  "struct " ++ name.text ++ " \x7b" ++ body ++ "\x7d;"

namespace State

/-- What opening a record without `typedef` comes to, for the node that is recorded. -/
theorem beginRecord_of_node {kind : Kind} {run : Run} {scope : OpenScope} {node : Node}
    (hnode : Node.describe
      { kind
        attrs :=
          { name := (run.texts[1]?).map withoutColons
            base := baseOf? (run.texts.drop 2) } } (scope.context.comment.getD "") = node)
    {committed : OpenScope × Option Path}
    (hcommitted : (scope.update fun c =>
      { c.dropRun.takeComment with typeAlias := none }).commitNamed node = committed) :
    beginRecord kind false run scope =
      (committed.1.update
          ({ · with record := some (OpenScope.placeOf node committed.2), claim := none }),
        ((OpenScope.placeOf node committed.2).node? committed.1.node).getD node) := by
  subst hnode hcommitted
  rfl

def structRun (name : Name) : Run := [⟨"struct", false⟩, ⟨name.text, true⟩]

theorem run_structWords (name : Name) :
    ∃ claim, (start .empty).run ("struct " ++ name.text ++ " ").toList =
      (start .empty).inContext { run := structRun name, claim } := by
  let struct : Name := ⟨"struct", by decide +kernel⟩
  have hspaced : Spaced ([struct, name].map Piece.ofName) ("struct " ++ name.text ++ " ").toList := by
    have hwords : Spaced ([struct, name].map Piece.ofName) _ :=
      .word (by decide : IsGap [' ']) (by simp) <| .word (by decide : IsGap [' ']) (by simp) .nil
    have htext : ("struct " ++ name.text ++ " ").toList =
        struct.text.toList ++ ([' '] ++ (name.text.toList ++ ([' '] ++ []))) := by
      simp [struct]
    rw [htext]
    exact hwords
  have hfirst : ∀ p, ([struct, name].map Piece.ofName).head? = some p →
      Context.Admits {} Kind.root p := by
    intro p hp
    obtain rfl := Option.some.inj hp
    refine ⟨fun _ h => ?_, fun _ => by decide⟩
    cases h
  obtain ⟨claim, hread⟩ := run_pieces_of_base (t := start .empty) (c := {}) hspaced
    ⟨rfl, rfl, rfl, rfl, rfl, rfl⟩ rfl (by decide) hfirst (depth_names _ 0) []
  rw [foldl_names awaits_nil, List.append_nil] at hread
  exact ⟨claim, hread⟩

theorem beginRecord_struct (name : Name) (hname : name.text.toList.head? ≠ some '_')
    (claim : Option (List Claim)) :
    ∃ outer : OpenScope, outer.node = Node.empty.withChildren [structNode name.text] ∧
      outer.context = { record := some (.inScope 0) } ∧
      beginRecord .structType false (structRun name)
          ((start .empty).inContext { run := structRun name, claim }).scope =
        (outer, structNode name.text) := by
  let begun : OpenScope := { OpenScope.begin .empty .source with context := { claim } }
  obtain ⟨committed, hcommitted⟩ : ∃ committed, begun.commit (structNode name.text) = committed :=
    ⟨_, rfl⟩
  have hlabel : (structNode name.text).name = some name.text := by rw [structNode_eq]
  have hpublic : (structNode name.text).isPrivate = false := by
    rw [structNode_eq]
    exact (by decide +kernel : Comment.isPrivate "" = false)
  have hrecordable := name.isRecordable_iff.mpr hname
  have hnode : committed.1.node = Node.empty.withChildren [structNode name.text] :=
    hcommitted ▸ (node_commit _).trans (record_empty hpublic hlabel hrecordable)
  have hpath : committed.2 = some [0] := by
    obtain ⟨i, m, hpath, hm, -⟩ := exists_commit begun hpublic hlabel hrecordable
    rw [hcommitted] at hpath hm
    rw [hnode] at hm
    have hlt : i < 1 := (List.getElem?_eq_some_iff.mp hm).1
    rw [hpath, Nat.lt_one_iff.mp hlt]
  obtain ⟨claim', hcontext⟩ : ∃ claim', committed.1.context = { claim := claim' } :=
    hcommitted ▸ context_commit rfl rfl rfl _
  have hnamed : begun.commitNamed (structNode name.text) = committed := by
    unfold OpenScope.commitNamed
    rw [if_neg, hcommitted]
    rw [hlabel]
    simpa using name.text_ne_empty
  have hdescribed : Node.describe
      { kind := .structType
        attrs :=
          { name := ((structRun name).texts[1]?).map withoutColons
            base := baseOf? ((structRun name).texts.drop 2) } } "" = structNode name.text := by
    simp [structRun, Run.texts, Name.withoutColons_text, structNode, baseOf?]
  have hplace : (OpenScope.placeOf (structNode name.text) committed.2).node? committed.1.node =
      some (structNode name.text) := by
    rw [hpath, hnode]
    rfl
  refine ⟨committed.1.update ({ · with record := some (.inScope 0), claim := none }), hnode, ?_, ?_⟩
  · rw [OpenScope.update, hcontext]
  · rw [beginRecord_of_node hdescribed hnamed, hplace, hpath]
    rfl

theorem run_structOpening (name : Name) (hname : name.text.toList.head? ≠ some '_') :
    ∃ outer : OpenScope, outer.node = Node.empty.withChildren [structNode name.text] ∧
      outer.context = { record := some (.inScope 0) } ∧
      (start .empty).run ("struct " ++ name.text ++ " \x7b").toList =
        { scope := .begin (structNode name.text) .record, enclosing := [outer] } := by
  obtain ⟨claim, hread⟩ := run_structWords name
  obtain ⟨outer, hnode, hcontext, hbegin⟩ := beginRecord_struct name hname claim
  refine ⟨outer, hnode, hcontext, ?_⟩
  have hopen : ((start .empty).inContext { run := structRun name, claim }).openBrace =
      ((start .empty).inContext { run := structRun name, claim }).openRecord .structType false
        (structRun name) := by
    unfold openBrace
    simp [inContext, structRun, splitAlias, Run.texts, recordKind?]
  have htext : ("struct " ++ name.text ++ " \x7b").toList =
      ("struct " ++ name.text ++ " ").toList ++ ['\x7b'] := by simp
  rw [htext, run_append, hread]
  change ((start .empty).inContext { run := structRun name, claim }).step '\x7b' = _
  rw [step_openBrace rfl, hopen, openRecord_eq, hbegin]
  rfl

/-- The brace that closes the body, and the semicolon behind it. -/
theorem run_structClosing {s outer : OpenScope} {before : Node} (horigin : s.origin = .record)
    (hattached : s.attached = true) (hsuspended : s.suspended = []) (hbraces : s.context.braces = 0)
    (hnode : outer.node = Node.empty.withChildren [before])
    (hcontext : outer.context = { record := some (.inScope 0) }) :
    (({ scope := s, enclosing := [outer] } : State).run ['\x7d', ';']).result.node =
      Node.empty.withChildren [s.node] := by
  obtain ⟨outerNode, outerOrigin, outerAttached, outerContext, suspended, declared, events⟩ := outer
  dsimp only at hnode hcontext
  subst hnode hcontext
  let outer : OpenScope :=
    { node := Node.empty.withChildren [before], origin := outerOrigin, attached := outerAttached
      context := { record := some (.inScope 0) }, suspended, declared, events }
  obtain ⟨f, hstep⟩ := step_closing_brace (s := { scope := s, enclosing := [outer] }) rfl hbraces
  have hpop : (({ scope := s, enclosing := [outer] } : State).update (·.update f)).pop =
      { scope := { outer with
          node := Node.empty.withChildren [s.node], events := events ++ s.events } } := by
    unfold State.pop State.update OpenScope.update putBack
    simp only [hsuspended, horigin, hattached]
    rfl
  change ((({ scope := s, enclosing := [outer] } : State).step '\x7d').step ';').result.node = _
  rw [hstep, hpop]
  rfl

end State

theorem scan_struct {name : Name} (hname : name.text.toList.head? ≠ some '_') {body : String}
    {node : Node}
    (hbody : ∀ enclosing, ∃ s : OpenScope, s.node = node ∧ s.origin = .record ∧
      s.attached = true ∧ s.suspended = [] ∧ s.context.braces = 0 ∧
      ({ scope := .begin (structNode name.text) .record, enclosing } : State).run body.toList =
        { scope := s, enclosing }) :
    scan (structText name body) .empty = Node.empty.withChildren [node] := by
  obtain ⟨outer, hnode, hcontext, hopening⟩ := State.run_structOpening name hname
  obtain ⟨s, rfl, horigin, hattached, hsuspended, hbraces, hread⟩ := hbody [outer]
  have htext : (structText name body).toList =
      ("struct " ++ name.text ++ " \x7b").toList ++ (body.toList ++ ['\x7d', ';']) := by
    simp [structText]
  unfold scan scanWithEvents
  rw [htext, State.run_append, hopening, State.run_append, hread]
  exact State.run_structClosing horigin hattached hsuspended hbraces hnode hcontext

end HeaderDocs.Scan
