import HeaderDocs.Proofs.Scan.Pieces
import HeaderDocs.Proofs.Scan.Prototypes

/-!
# Where declarators end

A variable is declared by a word directly before a comma or a semicolon, or by a semicolon that finds
an initial value or a pointer to a function in the run. Both record one node in the scope, use the
waiting comment up, and leave nothing of the run.

* `State.run_word_ends`: a word that ends a declarator.
* `State.step_semicolon_declares`, `State.step_semicolon_nothing`: a semicolon.
-/
namespace HeaderDocs.Scan

open HeaderDocs.Text

variable {s : OpenScope} {c : Context}

/-- The first word of a declaration that is neither the name of a type nor left out. -/
theorem head_of_leads {first : Option String}
    (h : first ∉ [some "typedef", some "static", some "extern"]) :
    first ≠ some "typedef" ∧ first.any (isLeftOut .root) = false := by
  cases first with
  | none => exact ⟨nofun, rfl⟩
  | some first =>
    simp only [List.mem_cons, Option.some.injEq, List.not_mem_nil, or_false, not_or] at h
    simp [isLeftOut, h]

/-- Recording a node changes only the claim of a context that refers to no other node. -/
theorem context_commit {c : Context} (hheader : c.header = none) (hrecord : c.record = none)
    (henumeration : c.enumeration = none) (node : Node) :
    ∃ claim, (({ s with context := c } : OpenScope).commit node).1.context = { c with claim } := by
  refine OpenScope.commitTo_context (P := fun d => ∃ claim, d = { c with claim }) ⟨c.claim, rfl⟩
    ?_ ?_ node
  · rintro i _ ⟨claim, rfl⟩
    refine ⟨claim.map (·.map (Claim.afterInsert ([] ++ [i]))), ?_⟩
    simp [Context.afterInsert, hheader, hrecord, henumeration]
  · rintro i removed _ ⟨claim, rfl⟩
    refine ⟨claim.map (·.filterMap (Claim.afterRemove? ([] ++ [i]))), ?_⟩
    simp [Context.afterRemove, hheader, hrecord, henumeration]

def Context.variableNode (c : Context) (d : Declarator) : Node :=
  ((d.toNode .var).withScope c.access).describeIf c.comment

theorem Context.variableNode_shows (c : Context) (d : Declarator) :
    (c.variableNode d).kind = .var ∧ (c.variableNode d).name = some d.name ∧
      (c.variableNode d).typeText = Run.text d.type ∧ (c.variableNode d).attrs.initial = d.initial := by
  have hnode : ∃ more, c.variableNode d =
      { kind := .var
        attrs := { name := some d.name, initial := d.initial, scope := c.access }
        children := d.type.toType :: more } := by
    unfold Context.variableNode
    cases c.comment with
    | none => exact ⟨[], rfl⟩
    | some raw =>
      refine ⟨_, describe_undescribed (by decide : Kind.var ≠ .argument) (fun n hn => ?_) raw⟩
      obtain rfl := List.mem_singleton.mp hn
      exact (by decide : Kind.typeExpr ≠ .description)
  obtain ⟨more, hnode⟩ := hnode
  rw [hnode]
  exact ⟨rfl, rfl, Run.text_toType _, rfl⟩

/-- A scope in which a node has been recorded, and otherwise the same scope. -/
structure OpenScope.Gains (s : OpenScope) (node : Node) (s' : OpenScope) : Prop where
  node : s'.node = record s.node node
  origin : s'.origin = s.origin
  attached : s'.attached = s.attached
  suspended : s.suspended = [] → s'.suspended = []

namespace OpenScope.Gains

variable {s' : OpenScope} {node : Node}

theorem kind (h : s.Gains node s') : s'.node.kind = s.node.kind := by rw [h.node, kind_record]

end OpenScope.Gains

theorem OpenScope.gains_commit (s : OpenScope) (node : Node) : s.Gains node (s.commit node).1 := by
  suffices hrest : (s.commit node).1.origin = s.origin ∧ (s.commit node).1.attached = s.attached ∧
      (s.suspended = [] → (s.commit node).1.suspended = []) from
    ⟨node_commit node, hrest.1, hrest.2.1, hrest.2.2⟩
  refine s.commit_cases node (fun _ => ⟨rfl, rfl, id⟩) (fun _ => ⟨rfl, rfl, id⟩) ?_
  intro ins room _ _ hroom
  obtain ⟨horigin, hattached, hsuspended⟩ : room.origin = s.origin ∧ room.attached = s.attached ∧
      (s.suspended = [] → room.suspended = []) := by
    refine hroom.of_removeAt (P := fun t => t.origin = s.origin ∧ t.attached = s.attached ∧
      (s.suspended = [] → t.suspended = [])) ⟨rfl, rfl, id⟩ fun i => ?_
    unfold OpenScope.removeAt
    split
    · exact ⟨rfl, rfl, fun h => by simp [OpenScope.mapContexts, h]⟩
    · exact ⟨rfl, rfl, id⟩
  refine ⟨horigin, hattached, fun h => ?_⟩
  simp [OpenScope.noteRecorded, OpenScope.note, OpenScope.insertAt, OpenScope.mapContexts,
    hsuspended h]

namespace Context

/-- A context after a declaration, with what the next declarator shares with the last one. -/
def declared (c : Context) (base : Run) (claim : Option (List Claim)) : Context :=
  { c with run := [], runComment := none, base, comment := none, claim }

/-- A context after a declaration of which nothing is made. -/
def dropped (c : Context) : Context := { c with run := [], runComment := none, base := [] }

theorem declared_startRun (c : Context) (base : Run) (claim : Option (List Claim)) :
    c.startRun.declared base claim = c.declared base claim := by
  unfold startRun
  split <;> rfl

theorem variableNode_startRun (c : Context) (d : Declarator) :
    c.startRun.variableNode d = c.variableNode d := by
  unfold startRun
  split <;> rfl

end Context

namespace OpenScope

theorem declareVariable_gains (hc : s.context.Declares) {d : Declarator}
    (hd : Declarator.ofRun? s.context.run = some d) (e : Char) :
    ∃ s' claim, s.Gains (s.context.variableNode d) s' ∧ s.declareVariable e =
      { s' with
        context :=
          s.context.declared (if e == ',' then d.type.takeWhile (·.isWord) else []) claim } := by
  let base := if e == ',' then d.type.takeWhile (·.isWord) else []
  let c' : Context := { s.context.declared base s.context.claim with joinable := false }
  let t := ({ s with context := c' } : OpenScope).commit (s.context.variableNode d)
  obtain ⟨claim, hcontext⟩ : ∃ claim, t.1.context = { c' with claim } :=
    context_commit (c := c') hc.header hc.record hc.enumeration _
  have hgains := gains_commit { s with context := c' } (s.context.variableNode d)
  have hdeclare : s.declareVariable e = t.1.update ({ · with claim := claimOn t.2 }) := by
    unfold declareVariable
    rw [hd]
    rfl
  refine ⟨t.1, claimOn t.2, ⟨hgains.node, hgains.origin, hgains.attached, hgains.suspended⟩, ?_⟩
  rw [hdeclare, OpenScope.update, hcontext]
  simp [c', base, Context.declared, hc.joinable]

theorem word_ends (hc : s.context.Declares) (hparens : s.context.parens = 0)
    (hrun : s.context.startRun.run ≠ [])
    (haccess : s.context.run = [] → s.node.kind.isRecord = false)
    (htypedef : s.context.startRun.run.texts.head? ≠ some "typedef")
    {e : Char} (he : e = ',' ∨ e = ';') (word : String) :
    s.word word e =
      if s.context.startRun.run.texts.head?.any (isLeftOut s.node.kind) then
        s.update (·.startRun.dropRun)
      else (s.update (·.pushWord word)).declareVariable e := by
  have hstart := hc.startRun
  have hmember : ¬(s.context.run.isEmpty && s.node.kind.isRecord &&
      isAccess (withoutColons word)) = true := by
    simp only [Bool.and_eq_true, List.isEmpty_iff, not_and, Bool.not_eq_true]
    intro h
    rw [haccess h.1] at h
    cases h.2
  have hopen : e ≠ '(' := by rcases he with rfl | rfl <;> decide
  obtain ⟨f, fs, hf⟩ := List.exists_cons_of_ne_nil hrun
  have hcontext : (s.update .startRun).context = s.context.startRun := rfl
  have hpush : (s.update .startRun).update (·.pushWord word) = s.update (·.pushWord word) := by
    simp only [OpenScope.update, Context.pushWord, Context.startRun_startRun]
  rw [hf] at htypedef
  have hfirst : f.text ≠ "typedef" := fun h => htypedef (congrArg some h)
  unfold OpenScope.word declarationWord
  dsimp only
  rw [if_pos (by simpa using hc.braces), if_neg hmember, if_neg (by simp [hopen]),
    if_neg (by simp [hcontext, hstart.inArguments]),
    if_pos (by simpa [hcontext, hf, hstart.header, or_comm] using he)]
  unfold endDeclarator
  simp only [hcontext, hstart.typeAlias, hstart.record, Option.isSome_none, Bool.or_self,
    Bool.false_eq_true, if_false, beq_iff_eq, hf, Run.texts, List.map_cons, List.headD_cons, hfirst,
    Context.parens_startRun, hparens, if_true, hpush, List.head?_cons, Option.any_some]
  rfl

theorem word_declares (hc : s.context.Declares) (hparens : s.context.parens = 0)
    (hrun : s.context.startRun.run ≠ [])
    (haccess : s.context.run = [] → s.node.kind.isRecord = false)
    (htypedef : s.context.startRun.run.texts.head? ≠ some "typedef")
    (hleft : s.context.startRun.run.texts.head?.any (isLeftOut s.node.kind) = false)
    {word : String} {d : Declarator}
    (hd : Declarator.ofRun? (s.context.startRun.run.pushWord word) = some d)
    {e : Char} (he : e = ',' ∨ e = ';') :
    ∃ s' claim, s.Gains (s.context.variableNode d) s' ∧ s.word word e =
      { s' with
        context :=
          s.context.declared (if e == ',' then d.type.takeWhile (·.isWord) else []) claim } := by
  have hpushed : (s.update (·.pushWord word)).context.Declares :=
    hc.startRun.withRun _ s.context.startRun.parens s.context.startRun.claim
  obtain ⟨s', claim, hgains, hdeclare⟩ := declareVariable_gains hpushed hd e
  have hcontext : ∀ base claim, (s.update (·.pushWord word)).context.declared base claim =
      s.context.declared base claim := Context.declared_startRun s.context
  have hnode : (s.update (·.pushWord word)).context.variableNode d = s.context.variableNode d :=
    Context.variableNode_startRun s.context d
  rw [hnode] at hgains
  rw [hcontext] at hdeclare
  refine ⟨s', claim, ⟨hgains.node, hgains.origin, hgains.attached, hgains.suspended⟩,
    (word_ends hc hparens hrun haccess htypedef he word).trans ?_⟩
  rw [if_neg (by simp [hleft]), hdeclare]

theorem endHeader_declares (hc : s.context.Declares) : s.endHeader = s := by
  unfold endHeader
  rw [hc.header]

theorem semicolon_declares (hc : s.context.Declares)
    (htypedef : s.context.run.texts.head? ≠ some "typedef")
    (hdeclares : declaresVariable s.node.kind s.context = true) {d : Declarator}
    (hd : Declarator.ofRun? s.context.run = some d) :
    ∃ s' claim, s.Gains (s.context.variableNode d) s' ∧
      s.semicolon = { s' with context := s.context.declared [] claim } := by
  obtain ⟨s', claim, hgains, hdeclare⟩ := declareVariable_gains hc hd ';'
  refine ⟨s', claim, hgains, ?_⟩
  unfold semicolon endRun
  rw [endHeader_declares hc, if_neg (by simpa using htypedef), if_pos hdeclares, hdeclare]
  simp [OpenScope.update, Context.declared, Context.dropRun, hc.braces, hc.record, hc.typeAlias,
    hc.enumeration]

theorem semicolon_idle (hc : s.context.Declares)
    (htypedef : s.context.run.texts.head? ≠ some "typedef")
    (hidle : declaresVariable s.node.kind s.context = false) :
    s.semicolon = s.update .dropped := by
  unfold semicolon endRun
  rw [endHeader_declares hc, if_neg (by simpa using htypedef), if_neg (by simp [hidle])]
  simp [OpenScope.update, Context.dropped, Context.dropRun, hc.braces, hc.record, hc.typeAlias,
    hc.enumeration]

end OpenScope

namespace State

variable {t : State}

def inScope (t : State) (s : OpenScope) : State := { t with scope := s }

theorem step_semicolon_inContext (hc : c.joinable = false) :
    (t.inContext c).step ';' = (t.inContext c).update .semicolon := by
  change (((t.inContext c).update (·.update ({ · with joinable := false }))).mark ';') = _
  rw [inContext_joinable hc]
  rfl

theorem step_semicolon_declares (hc : c.Declares) (htypedef : c.run.texts.head? ≠ some "typedef")
    (hdeclares : OpenScope.declaresVariable t.scope.node.kind c = true) {d : Declarator}
    (hd : Declarator.ofRun? c.run = some d) :
    ∃ s claim, t.scope.Gains (c.variableNode d) s ∧
      (t.inContext c).step ';' = (t.inScope s).inContext (c.declared [] claim) := by
  obtain ⟨s, claim, hgains, hsemicolon⟩ := OpenScope.semicolon_declares
    (s := { t.scope with context := c }) hc htypedef hdeclares hd
  refine ⟨s, claim, ⟨hgains.node, hgains.origin, hgains.attached, hgains.suspended⟩, ?_⟩
  rw [step_semicolon_inContext hc.joinable]
  exact congrArg (fun scope => { t with mode := .plain, scope }) hsemicolon

theorem step_semicolon_dropped (hc : c.Declares) (htypedef : c.run.texts.head? ≠ some "typedef")
    (hidle : OpenScope.declaresVariable t.scope.node.kind c = false) :
    (t.inContext c).step ';' = t.inContext c.dropped := by
  rw [step_semicolon_inContext hc.joinable]
  exact congrArg (fun scope => { t with mode := .plain, scope })
    (OpenScope.semicolon_idle (s := { t.scope with context := c }) hc htypedef hidle)

theorem run_word_ends (hc : c.Declares) (hparens : c.parens = 0) (hrun : c.startRun.run ≠ [])
    (haccess : c.run = [] → t.scope.node.kind.isRecord = false)
    (htypedef : c.startRun.run.texts.head? ≠ some "typedef")
    (hleft : c.startRun.run.texts.head?.any (isLeftOut t.scope.node.kind) = false) (w : Word)
    {d : Declarator} (hd : Declarator.ofRun? (c.startRun.run.pushWord w.text) = some d)
    {e : Char} (he : e = ',' ∨ e = ';') (rest : List Char) :
    ∃ s claim, t.scope.Gains (c.variableNode d) s ∧
      (t.inContext c).run (w.text.toList ++ e :: rest) =
        ((t.inScope s).inContext
          (c.declared (if e == ',' then d.type.takeWhile (·.isWord) else []) claim)).run
            (e :: rest) := by
  have hpart : isWordPart c.parens e = false := by
    rw [hparens]
    rcases he with rfl | rfl <;> decide
  obtain ⟨s, claim, hgains, hword⟩ := OpenScope.word_declares (s := { t.scope with context := c }) hc
    hparens hrun haccess htypedef hleft hd he
  refine ⟨s, claim, ⟨hgains.node, hgains.origin, hgains.attached, hgains.suspended⟩, ?_⟩
  rw [run_word_inContext hc.joinable w hpart]
  exact congrArg (fun scope => State.run { t with mode := .plain, scope } (e :: rest)) hword

theorem step_comma_declared (hc : c.Declares) (hrun : c.run = []) :
    (t.inContext c).step ',' = t.inContext c := by
  have hcomma : c.comma = c := by
    unfold Context.comma Context.pushIfStarted
    rw [hc.inEnumeration, hc.inArguments, hrun]
    rfl
  rw [step_mark_inContext hc.joinable (f := .comma) (by decide) (by decide) fun _ => rfl, hcomma]

theorem step_semicolon_nothing (hc : c.Declares) (hrun : c.run = []) :
    (t.inContext c).step ';' = t.inContext c.dropped := by
  refine step_semicolon_dropped hc (by rw [hrun]; decide) ?_
  unfold OpenScope.declaresVariable
  rw [hrun]
  simp [Run.texts, Run.isFunctionPointer]

end State

end HeaderDocs.Scan
