import HeaderDocs.Proofs.Scan.DeclaratorLists
import HeaderDocs.Proofs.Scan.EnumerationLines

/-!
# Member variables

In the body of a record a variable has the access that members have there. It is recorded at its
semicolon, where a comment behind it finds it by its position.

* `OpenScope.commit_snd`: where a node is recorded.
* `State.run_variable`: reading a variable in the body of a record.
-/
namespace HeaderDocs.Scan

open HeaderDocs.Text

/-! ## Where scopes are put back -/

/-- The scope is put back in the same way when its body has been read. -/
structure OpenScope.SamePlace (s s' : OpenScope) : Prop where
  origin : s'.origin = s.origin
  attached : s'.attached = s.attached
  suspended : s.suspended = [] → s'.suspended = []

namespace OpenScope

variable {s s' s'' : OpenScope}

theorem SamePlace.trans (h : s.SamePlace s') (h' : s'.SamePlace s'') : s.SamePlace s'' :=
  ⟨h'.origin.trans h.origin, h'.attached.trans h.attached, fun hs => h'.suspended (h.suspended hs)⟩

theorem Gains.samePlace {node : Node} (h : s.Gains node s') : s.SamePlace s' :=
  ⟨h.origin, h.attached, h.suspended⟩

theorem samePlace_removeAt (s : OpenScope) (path : Path) : s.SamePlace (s.removeAt path) := by
  unfold removeAt
  split
  · exact ⟨rfl, rfl, fun h => by simp [mapContexts, h]⟩
  · exact ⟨rfl, rfl, id⟩

end OpenScope

/-! ## Where nodes are recorded -/

/-- The path to a node once it has been recorded in a scope, if it is. -/
def recordedAt (scope node : Node) : Option Path :=
  if node.isPrivate then none else (scope.insertion? node).map ([·.position])

theorem OpenScope.commit_snd (s : OpenScope) (node : Node) :
    (s.commit node).2 = recordedAt s.node node := by
  unfold OpenScope.commit OpenScope.commitTo recordedAt
  dsimp only
  split
  · rfl
  · rw [show (s.node.get? []).bind (·.insertion? node) = s.node.insertion? node from rfl]
    cases s.node.insertion? node <;> rfl

theorem OpenScope.declareVariable_claims {s : OpenScope} (hc : s.context.Declares) {d : Declarator}
    (hd : Declarator.ofRun? s.context.run = some d) :
    ∃ s', s.Gains (s.context.variableNode d) s' ∧ s.declareVariable ';' =
      { s' with
        context := s.context.declared []
          (claimOn (recordedAt s.node (s.context.variableNode d))) } := by
  let node := s.context.variableNode d
  let c' : Context := { s.context.declared [] s.context.claim with joinable := false }
  let t := ({ s with context := c' } : OpenScope).commit node
  obtain ⟨claim, hcontext⟩ : ∃ claim, t.1.context = { c' with claim } :=
    context_commit (c := c') hc.header hc.record hc.enumeration _
  have hpath : t.2 = recordedAt s.node node := OpenScope.commit_snd _ node
  have hgains := gains_commit { s with context := c' } node
  have hdeclare : s.declareVariable ';' = t.1.update ({ · with claim := claimOn t.2 }) := by
    unfold declareVariable
    rw [hd]
    rfl
  refine ⟨t.1, ⟨hgains.node, hgains.origin, hgains.attached, hgains.suspended⟩, ?_⟩
  rw [hdeclare, OpenScope.update, hcontext, hpath]
  simp [c', node, Context.declared, hc.joinable]

/-! ## Variables -/

/-- A variable as it is declared in the body of a record. -/
structure MemberVariable where
  type : NamedType
  name : Name
  leads : type.words.head?.map (·.text) ∉
    [some "typedef", some "extern", some "public", some "protected", some "private"]

namespace MemberVariable

variable (v : MemberVariable)

/-- How a variable is written: the semicolon stands directly behind its name. -/
def Spelled (cs : List Char) : Prop :=
  ∃ typed, Spaced v.type.pieces typed ∧ cs = typed ++ (v.name.text.toList ++ [';'])

/-- The node of a variable where members have the given access. -/
def toNode (access : Option String) : Node :=
  { kind := .var
    attrs := { name := some v.name.text, scope := access }
    children := [(v.type.toRun false).toType] }

def toDeclarator : Declarator where
  name := v.name.text
  type := v.type.toRun false
  initial := none

theorem variableNode_eq (access : Option String) (c : Context) (haccess : c.access = access)
    (hcomment : c.comment = none) : c.variableNode v.toDeclarator = v.toNode access := by
  subst haccess
  unfold Context.variableNode
  rw [hcomment]
  rfl

theorem isPrivate_toNode (access : Option String) : (v.toNode access).isPrivate = false :=
  (by decide +kernel : Comment.isPrivate "" = false)

theorem ofRun?_toDeclarator :
    Declarator.ofRun? ((v.type.pieces.foldl Run.pushPiece []).pushWord v.name.text) =
      some v.toDeclarator :=
  v.type.ofRun?_pushWord v.name

/-- The first word of the declaration, where it is collected. -/
theorem head?_run : ∃ first : Name, v.type.words.head? = some first ∧
    (v.type.pieces.foldl Run.pushPiece []).texts.head? = some first.text ∧ first.text ≠ "typedef" ∧
    first.text ≠ "extern" ∧ isAccess first.text = false := by
  obtain ⟨first, words, hwords⟩ := List.exists_cons_of_ne_nil v.type.words_ne_nil
  have hfirst : v.type.words.head? = some first := by rw [hwords]; rfl
  have hleads := v.leads
  simp only [hfirst, Option.map_some, List.mem_cons, Option.some.injEq, List.not_mem_nil, or_false,
    not_or] at hleads
  refine ⟨first, hfirst, ?_, hleads.1, hleads.2.1, by simp [isAccess, hleads]⟩
  rw [v.type.foldl_pieces awaits_nil, List.nil_append, v.type.head?_texts_toRun, hfirst]
  rfl

end MemberVariable

namespace State

variable {t : State}

/-- The words of a type are read the same whether or not a comment could have been continued before
them. -/
theorem run_pieces_joinable {c : Context} {type : NamedType} {cs : List Char}
    (hcs : Spaced type.pieces cs) (joinable : Bool) (rest : List Char) :
    (t.inContext { c with joinable }).run (cs ++ rest) =
      (t.inContext { c with joinable := false }).run (cs ++ rest) := by
  obtain ⟨w, ws, hwords⟩ := List.exists_cons_of_ne_nil type.words_ne_nil
  rw [NamedType.pieces, hwords] at hcs
  cases hcs with
  | word hgap hsep hcs =>
    rw [List.append_assoc]
    exact run_name_joinable joinable w _

/-- The words and stars in front of the name of a variable. -/
theorem run_variableType (v : MemberVariable) {typed : List Char} (htyped : Spaced v.type.pieces typed)
    (access : Option String) (joinable : Bool) (claim : Option (List Claim)) (rest : List Char) :
    ∃ claim', (t.inContext { access, joinable, claim }).run (typed ++ rest) =
      (t.inContext
        { access, run := v.type.pieces.foldl Run.pushPiece [], claim := claim' }).run rest := by
  obtain ⟨first, hfirst, -, htypedef, -, haccess⟩ := v.head?_run
  have hadmits : ∀ p, v.type.pieces.head? = some p →
      Context.Admits { access, claim } t.scope.node.kind p := by
    intro p hp
    obtain ⟨words, hwords⟩ := List.head?_eq_some_iff.mp hfirst
    rw [NamedType.pieces, hwords] at hp
    obtain rfl := Option.some.inj hp
    refine ⟨fun _ _ => ?_, fun _ => htypedef⟩
    exact (congrArg isAccess first.withoutColons_text).trans haccess
  rw [run_pieces_joinable (c := { access, claim }) htyped joinable]
  exact run_pieces_of_base (t := t) (c := { access, claim }) htyped ⟨rfl, rfl, rfl, rfl, rfl, rfl⟩ rfl
    (fun he => by cases he) hadmits (v.type.depth_pieces 0) rest

end State

/-- The name of a variable records it with the access that members have. -/
theorem OpenScope.word_variable {s : OpenScope} (hkind : s.node.kind ≠ .root) (v : MemberVariable)
    (access : Option String) (claim : Option (List Claim)) :
    ∃ s', s.Gains (v.toNode access) s' ∧
      ({ s with context :=
          { access, run := v.type.pieces.foldl Run.pushPiece [], claim } } : OpenScope).word
          v.name.text ';' =
        { s' with
          context := { access, claim := claimOn (recordedAt s.node (v.toNode access)) } } := by
  obtain ⟨first, -, hhead, htypedef, hextern, -⟩ := v.head?_run
  let run := v.type.pieces.foldl Run.pushPiece []
  let c : Context := { access, run, claim }
  have hne : run ≠ [] := by
    intro he
    have hnone : run.texts.head? = none := by rw [he]; rfl
    rw [hhead] at hnone
    cases hnone
  have hstart : c.startRun = c := Context.startRun_of_run hne
  have hrun : c.startRun.run.texts.head? = some first.text := by rw [hstart]; exact hhead
  have hleft : c.startRun.run.texts.head?.any (isLeftOut s.node.kind) = false := by
    rw [hrun]
    simp [isLeftOut, hextern, hkind]
  have hends := word_ends (s := { s with context := c }) ⟨rfl, rfl, rfl, rfl, rfl, rfl⟩ rfl
    (by rw [hstart]; exact hne) (fun he => absurd he hne) (by rw [hrun]; simpa using htypedef)
    (.inr rfl : ';' = ',' ∨ ';' = ';') v.name.text
  have hpushed : ({ s with context := c } : OpenScope).update (·.pushWord v.name.text) =
      { s with context := { access, run := run.pushWord v.name.text, claim } } := by
    rw [OpenScope.update, Context.pushWord, hstart]
  rw [if_neg (by simpa using hleft), hpushed] at hends
  obtain ⟨s', hgains, hdeclare⟩ := declareVariable_claims
    (s := { s with context := { access, run := run.pushWord v.name.text, claim } })
    ⟨rfl, rfl, rfl, rfl, rfl, rfl⟩ v.ofRun?_toDeclarator
  rw [v.variableNode_eq access _ rfl rfl] at hgains hdeclare
  exact ⟨s', ⟨hgains.node, hgains.origin, hgains.attached, hgains.suspended⟩, hends.trans hdeclare⟩

namespace State

variable {t : State}

/-- A variable is recorded with the access that members have, and claimed for a comment behind it. -/
theorem run_variable (hkind : t.scope.node.kind ≠ .root) (v : MemberVariable) {cs : List Char}
    (hcs : v.Spelled cs) (access : Option String) (joinable : Bool) (claim : Option (List Claim))
    (rest : List Char) :
    ∃ s, t.scope.Gains (v.toNode access) s ∧
      (t.inContext { access, joinable, claim }).run (cs ++ rest) =
        ((t.inScope s).inContext
          { access, claim := OpenScope.claimOn (recordedAt t.scope.node (v.toNode access)) }).run
            rest := by
  obtain ⟨typed, htyped, rfl⟩ := hcs
  obtain ⟨claim', hread⟩ := run_variableType (t := t) v htyped access joinable claim
    (v.name.text.toList ++ ';' :: rest)
  obtain ⟨s, hgains, hdeclare⟩ := OpenScope.word_variable hkind v access claim'
  let c : Context := { access, run := v.type.pieces.foldl Run.pushPiece [], claim := claim' }
  let claimed : Context :=
    { access, claim := OpenScope.claimOn (recordedAt t.scope.node (v.toNode access)) }
  have hword := run_word_inContext (t := t) (c := c) rfl v.name.toWord
    (show isWordPart 0 ';' = false by decide) rest
  have hended : (t.inContext c).update (·.word v.name.text ';') = (t.inScope s).inContext claimed :=
    congrArg (fun scope => ({ t with mode := .plain, scope } : State)) hdeclare
  have hsemicolon : ((t.inScope s).inContext claimed).step ';' = (t.inScope s).inContext claimed :=
    step_semicolon_nothing ⟨rfl, rfl, rfl, rfl, rfl, rfl⟩ rfl
  rw [show v.name.toWord.text = v.name.text from rfl, hended] at hword
  refine ⟨s, hgains, ?_⟩
  have hsplit : typed ++ (v.name.text.toList ++ [';']) ++ rest =
      typed ++ (v.name.text.toList ++ ';' :: rest) := by simp
  rw [hsplit]
  refine hread.trans (hword.trans ?_)
  exact congrArg (State.run · rest) hsemicolon

end State

end HeaderDocs.Scan
