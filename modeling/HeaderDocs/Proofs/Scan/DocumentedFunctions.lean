import HeaderDocs.Proofs.Scan.Aliases
import HeaderDocs.Proofs.Scan.BlockComments
import HeaderDocs.Proofs.Scan.ParameterLines

/-!
# Functions with comments for all their parts

A comment before a function describes it, one between the type and the name describes what it
returns, and one behind a parameter describes that parameter.

* `State.run_returned`: the type that is returned, with a comment behind it.
* `State.result_ending`: the semicolon or the body behind the parameters.
* `scan_documentedFunction`: a source that is one such function.
-/
namespace HeaderDocs.Scan

open HeaderDocs.Text

/-! ## What is returned -/

/-- How the type that is returned is written, with the comment in front of the name. The comment may
touch the type. -/
inductive ReturnText (type : NamedType) : Option BlockComment → List Char → Prop
  | plain {cs : List Char} : Spaced type.pieces cs → ReturnText type none cs
  | apart {c : BlockComment} {cs gap : List Char} : Spaced type.pieces cs → IsGap gap →
      ReturnText type (some c) (cs ++ (c.chars ++ gap))
  | touching {c : BlockComment} {ps : List Piece} {w : Word} {cs gap : List Char} :
      type.pieces = ps ++ [.word w] → Spaced ps cs → IsGap gap →
      ReturnText type (some c) (cs ++ (w.text.toList ++ (c.chars ++ gap)))

namespace State

variable {s : OpenScope} {c : Context}

/-- A comment inside of a declaration describes what is returned. -/
theorem run_comment_inRun (hrecord : s.node.kind.isRecord = false) (hclaim : c.claim = none)
    (hheader : c.header = none) (henumeration : c.enumeration = none)
    (hrunComment : c.runComment = none) (hrun : c.run ≠ []) (comment : BlockComment) :
    (reading s c).run comment.chars = reading s { c with runComment := rawText? (some comment) } := by
  have htake : ({ s with context := c } : OpenScope).takeComment comment.text false =
      { s with context := { c with runComment := rawText? (some comment) } } := by
    rw [rawText?_some]
    unfold OpenScope.takeComment
    by_cases htext : comment.text = ""
    · rw [if_pos (by simpa using htext), if_pos htext, ← hrunComment]
    · rw [if_neg (by simpa using htext), if_neg htext]
      simp [hclaim, hrecord, hrun, hheader, Context.inEnumeration, henumeration, OpenScope.update]
  rw [run_comment rfl]
  exact congrArg (fun scope => ({ scope } : State)) htake

theorem run_returned (hroot : s.node.kind = .root) {type : NamedType} {returned : Option BlockComment}
    {cs : List Char} (hcs : ReturnText type returned cs) (comment : Option String)
    (rest : List Char) :
    (reading s { comment }).run (cs ++ rest) = (reading s
      { run := type.toRun false, runComment := rawText? returned, comment }).run rest := by
  have hrecord : s.node.kind.isRecord = false := by rw [hroot]; rfl
  have hc : ({ comment } : Context).Gathers := ⟨rfl, rfl, rfl⟩
  have haccess : ∀ word, NoAccess { comment } s.node.kind word := fun _ _ he => by
    rw [hrecord] at he
    cases he
  have hfold : type.pieces.foldl Run.pushPiece [] = type.toRun false := type.foldl_pieces awaits_nil
  have htype : ∀ {cs : List Char}, Spaced type.pieces cs → ∀ rest,
      (reading s { comment }).run (cs ++ rest) =
        (reading s { run := type.toRun false, comment }).run rest := fun hcs rest => by
    obtain ⟨claim, hclaim, hread⟩ := run_type (t := { scope := s }) hcs hc (fun w _ => haccess w.text) rest
    obtain rfl : claim = none := hclaim.elim id id
    rw [hfold] at hread
    exact hread
  have hremark : ∀ (c : BlockComment) {gap : List Char}, IsGap gap →
      (reading s { run := type.toRun false, comment }).run (c.chars ++ (gap ++ rest)) = (reading s
        { run := type.toRun false, runComment := rawText? (some c), comment }).run rest :=
    fun c gap hgap => by
      rw [run_append, run_comment_inRun hrecord rfl rfl rfl rfl (type.toRun_ne_nil false) c,
        run_append, run_gap_unclaimed rfl rfl hgap]
  cases hcs with
  | plain hcs => exact htype hcs rest
  | @apart c cs gap hcs hgap =>
    rw [List.append_assoc, List.append_assoc, htype hcs]
    exact hremark c hgap
  | @touching c ps w cs gap hpieces hcs hgap =>
    have hplain : ∀ p ∈ ps, p.IsPlain := fun p hp =>
      type.isPlain_pieces p (hpieces ▸ List.mem_append_left _ hp)
    have hfirst : ∀ m, ps.head? ≠ some (.mark m) := by
      intro m hm
      obtain ⟨first, words, hwords⟩ := List.exists_cons_of_ne_nil type.words_ne_nil
      obtain ⟨ps', rfl⟩ := List.head?_eq_some_iff.mp hm
      rw [NamedType.pieces, hwords] at hpieces
      cases hpieces
    have hlast : (ps.foldl Run.pushPiece []).pushWord w.text = type.toRun false := by
      rw [← hfold, hpieces, List.foldl_concat]
      rfl
    obtain ⟨claim, cs', hclaim, hnil, hread⟩ := run_plainPieces (t := { scope := s })
      (show Spaced (ps ++ []) cs by rwa [List.append_nil]) hplain
      (fun _ he => by cases he) hc (fun _ => hfirst) (fun w _ => haccess w.text)
      (w.text.toList ++ (c.chars ++ (gap ++ rest)))
    cases hnil
    obtain rfl : claim = none := hclaim.elim id id
    have hword := run_word_gathered (t := { scope := s })
      (c := { run := ps.foldl Run.pushPiece [], comment }) ⟨rfl, rfl, rfl⟩ w (d := '/')
      (fun _ he => by rw [hrecord] at he; cases he) (by decide : isWordPart 0 '/' = false) (by decide)
      ('*' :: (c.body ++ ['*', '/']) ++ (gap ++ rest))
    rw [hlast] at hword
    rw [List.append_assoc, List.append_assoc, List.append_assoc]
    exact hread.trans (hword.trans (hremark c hgap))

end State

/-! ## Behind the parameters -/

inductive FunctionEnd : List Char → Prop
  | semicolon : FunctionEnd [';']
  | body {body : List Char} : isBalanced body = true → FunctionEnd ('\x7b' :: (body ++ ['\x7d']))

namespace State

theorem result_ending {s : OpenScope} {h : Header} (htyped : h.typed = true) (hhome : h.home = none)
    (hclosed : h.argumentsOpen = false) {claim : Option (List Claim)} {joinable : Bool}
    (htidy : (reading s { header := some h, claim, joinable }).Tidy) {ending : List Char}
    (hending : FunctionEnd ending) {trailing : List Char} (htrailing : IsGap trailing) :
    ((reading s { header := some h, claim, joinable }).run (ending ++ trailing)).result.node =
      record s.node h.node := by
  rw [run_append]
  cases hending with
  | semicolon =>
    obtain ⟨s', hnode, claim', hstep⟩ := step_semicolon (s := s) htyped hhome claim
    change (((reading s { header := some h, claim, joinable }).step ';').run trailing).result.node = _
    rw [show (reading s { header := some h, claim, joinable }).step ';' =
      (reading s { header := some h, claim }).step ';' from rfl, hstep,
      node_run_gap rfl rfl rfl htrailing]
    exact hnode
  | body hbody =>
    have hawaits : (reading s { header := some h, claim, joinable }).AwaitsBody :=
      ⟨rfl, rfl, rfl, rfl, rfl, h, rfl, hclosed, .inl htyped⟩
    rw [hawaits.run_block htidy rfl hbody, node_run_gap rfl rfl rfl htrailing]
    exact node_commitHeader hhome

end State

/-! ## A source -/

structure DocumentedFunction where
  comment : Option BlockComment := none
  type : NamedType
  /-- The comment between the type and the name. -/
  returned : Option BlockComment := none
  name : Name
  parameters : List ParameterLine
  leads : type.words.head?.map (·.text) ∉ [some "typedef", some "static", some "extern"]
  returns : type.stars = 0 → type.words.getLast?.map (·.text) ≠ some "void"

namespace DocumentedFunction

variable (f : DocumentedFunction)

/-- How the function is written. Its name touches the parenthesis. -/
def Spelled (cs : List Char) : Prop :=
  ∃ leading before returned parameters between ending trailing, IsGap leading ∧ IsGap before ∧
    ReturnText f.type f.returned returned ∧ ParametersText f.parameters parameters ∧
    IsGap between ∧ FunctionEnd ending ∧ IsGap trailing ∧
    cs = leading ++ (f.comment.elim [] (·.chars) ++ (before ++ (returned ++
      (f.name.text.toList ++ '(' :: (parameters ++ (between ++ (ending ++ trailing)))))))

/-- The text that describes the function, which is empty without a comment. -/
def about : String := (Comment.normalize ((rawText? f.comment).getD "")).text

def aboutReturned : String := (Comment.normalize ((rawText? f.returned).getD "")).text

def returnNode : Node :=
  { kind := .result
    children := [(f.type.toRun false).toType, Node.descriptionOf f.aboutReturned] }

def toNode : Node :=
  { kind := .function
    attrs := { name := some f.name.text }
    children :=
      f.returnNode :: Node.descriptionOf f.about :: f.parameters.map (·.toNode) }

def namedContext : Context :=
  { run := f.type.toRun false, runComment := rawText? f.returned, comment := rawText? f.comment }

theorem resultOf?_toRun :
    OpenScope.resultOf? (f.type.toRun false) (rawText? f.returned) = some f.returnNode := by
  obtain ⟨last, hlast⟩ : ∃ last, (f.type.toRun false).getLast? = some last :=
    ⟨_, List.getLast?_eq_some_getLast (f.type.toRun_ne_nil false)⟩
  have hvoid : last.text ≠ "void" := by
    have hne := f.type.getLast?_texts_toRun f.returns false
    rw [Run.texts, List.getLast?_map, hlast] at hne
    exact fun he => hne (congrArg some he)
  unfold OpenScope.resultOf?
  rw [hlast]
  dsimp only
  rw [if_neg (by simpa using hvoid), f.type.closeUp_toRun, describe_undescribed
    (by decide : Kind.result ≠ .argument) fun c hc => ?_]
  · rfl
  · rw [List.mem_singleton.mp hc]
    exact (by decide : Kind.typeExpr ≠ .description)

theorem headerOf_namedContext :
    (f.namedContext.headerOf f.name).extend (f.parameters.map (·.toNode)) =
      { node := f.toNode, typed := true } := by
  have htyped : (!(f.type.toRun false).isEmpty) = true := by simpa using f.type.toRun_ne_nil false
  unfold Context.headerOf Header.extend
  dsimp only [namedContext]
  rw [f.resultOf?_toRun, htyped]
  rfl

end DocumentedFunction

namespace State

theorem result_documentedFunction {f : DocumentedFunction}
    (hpublic : ∀ p ∈ f.parameters, ∀ raw ∈ p.raw?, Comment.isPrivate raw = false) {cs : List Char}
    (hcs : f.Spelled cs) : ((start .empty).run cs).result.node = record .empty f.toNode := by
  obtain ⟨leading, before, returned, parameters, between, ending, trailing, hleading, hbefore,
    hreturned, hparameters, hbetween, hending, htrailing, rfl⟩ := hcs
  let s : OpenScope := .begin .empty .source
  have htexts : "=" ∉ (f.type.toRun false).texts :=
    f.type.notMem_texts_toRun (fun w => w.text_ne (by decide)) (by decide) false
  have hhead : f.namedContext.run.texts.head? = f.type.words.head?.map (·.text) :=
    f.type.head?_texts_toRun false
  have hleads := f.leads
  simp only [List.mem_cons, List.not_mem_nil, or_false, not_or] at hleads
  have hleft : (f.type.words.head?.map (·.text)).any (isLeftOut .root) = false := by
    cases hfirst : f.type.words.head?.map (·.text) with
    | none => rfl
    | some first =>
      rw [hfirst] at hleads
      simp only [Option.some.injEq] at hleads
      simp [isLeftOut, hleads]
  have hname := run_functionName (t := { scope := s }) (c := f.namedContext) ⟨rfl, rfl, rfl⟩ rfl rfl
    f.name (fun _ he => by cases he) htexts (hhead ▸ hleads.1) (hhead ▸ hleft)
    (parameters ++ between)
  obtain ⟨claim₁, joinable₁, hread⟩ := run_parameters (t := { scope := s })
    (h := f.namedContext.headerOf f.name) none rfl (fun _ _ _ _ he => by cases he) hpublic hparameters none
    false
  obtain ⟨claim₂, joinable₂, hgap⟩ := run_gap_pending (t := { scope := s })
    { header := some { (f.namedContext.headerOf f.name).extend (f.parameters.map (·.toNode)) with
      argumentsOpen := false } } claim₁ joinable₁ hbetween []
  let h : Header := { node := f.toNode, typed := true, argumentsOpen := false }
  have hheader : { (f.namedContext.headerOf f.name).extend (f.parameters.map (·.toNode)) with
      argumentsOpen := false } = h :=
    congrArg (fun h : Header => { h with argumentsOpen := false }) f.headerOf_namedContext
  rw [hheader] at hread hgap
  have hrun : (start .empty).run (leading ++ (f.comment.elim [] (·.chars) ++ (before ++ (returned ++
      (f.name.text.toList ++ '(' :: (parameters ++ between)))))) =
        reading s { header := some h, claim := claim₂, joinable := joinable₂ } := by
    rw [run_leading f.comment hleading hbefore, run_returned rfl hreturned]
    refine hname.trans ?_
    rw [run_append]
    refine (congrArg (State.run · between) hread).trans ?_
    rw [List.append_nil] at hgap
    exact hgap
  have hsplit : leading ++ (f.comment.elim [] (·.chars) ++ (before ++ (returned ++
      (f.name.text.toList ++ '(' :: (parameters ++ (between ++ (ending ++ trailing))))))) =
      leading ++ (f.comment.elim [] (·.chars) ++ (before ++ (returned ++
        (f.name.text.toList ++ '(' :: (parameters ++ between))))) ++ (ending ++ trailing) := by simp
  rw [hsplit, run_append, hrun]
  exact result_ending (s := s) (h := h) rfl rfl rfl (hrun ▸ tidy_run .empty _) hending htrailing

end State

/-! ### Its arguments -/

namespace ParameterLine

variable (p : ParameterLine)

/-- The parts of an argument: it has a description and a direction only if its comment says
something. -/
theorem toNode_eq : p.toNode =
    { kind := .argument
      attrs :=
        { name := some p.name.text
          direction := p.raw?.bind fun raw => (Comment.normalize raw).direction }
      children := (p.type.toRun false).toType ::
        p.raw?.toList.map fun raw => Node.descriptionOf (Comment.normalize raw).text } := by
  unfold toNode
  cases p.raw? with
  | none => rfl
  | some raw =>
    cases hdirection : (Comment.normalize raw).direction with
    | none => simp [Node.describeIf, Node.describe, hdirection, Node.setDescription,
        Declarator.toNode, toDeclarator, Node.isKind, Run.toType]
    | some direction => simp [Node.describeIf, Node.describe, hdirection, Node.setDescription,
        Declarator.toNode, toDeclarator, Node.isKind, Run.toType]

theorem typeText_toNode : p.toNode.typeText = p.type.text := by
  rw [p.toNode_eq, ← p.type.text_toRun false, ← Run.text_toType]
  rfl

theorem childrenOf_toNode : p.toNode.childrenOf .description =
    p.raw?.toList.map fun raw => Node.descriptionOf (Comment.normalize raw).text := by
  rw [p.toNode_eq, Node.childrenOf]
  cases p.raw? <;> rfl

end ParameterLine

namespace DocumentedFunction

variable (f : DocumentedFunction)

theorem descriptionText_toNode : f.toNode.descriptionText = f.about :=
  Node.text_descriptionOf f.about

theorem kind_argument : ∀ n ∈ f.parameters.map (·.toNode), n.kind = .argument := by
  intro n hn
  obtain ⟨p, -, rfl⟩ := List.mem_map.mp hn
  rw [p.toNode_eq]

theorem childrenOf_toNode : f.toNode.childrenOf .argument = f.parameters.map (·.toNode) :=
  List.filter_eq_self.mpr fun n hn => beq_iff_eq.mpr (f.kind_argument n hn)

theorem childrenOf_toNode_result : f.toNode.childrenOf .result = [f.returnNode] := by
  have harguments : (f.parameters.map (·.toNode)).filter (Node.isKind .result) = [] :=
    List.filter_eq_nil_iff.mpr fun n hn => by simp [Node.isKind, f.kind_argument n hn]
  exact congrArg (f.returnNode :: ·) harguments

end DocumentedFunction

/-- A function with comments for its parts: the comment before it describes it, the one between the
type and the name describes what it returns, and each argument has the description and the direction
that the comment behind the parameter gives. -/
theorem scan_documentedFunction (f : DocumentedFunction) (hname : f.name.text.toList.head? ≠ some '_')
    (hpublic : Comment.isPrivate f.about = false)
    (harguments : ∀ p ∈ f.parameters, ∀ raw ∈ p.raw?, Comment.isPrivate raw = false) {text : String}
    (htext : f.Spelled text.toList) :
    ∃ function, scan text .empty = Node.empty.withChildren [function] ∧
      function.label? = some (.function, f.name.text) ∧ function.descriptionText = f.about ∧
      (function.childrenOf .result).map (·.descriptionText) = [f.aboutReturned] ∧
      function.childrenOf .argument = f.parameters.map (·.toNode) ∧
      ∀ p ∈ f.parameters, p.toNode.name = some p.name.text ∧ p.toNode.typeText = p.type.text ∧
        p.toNode.attrs.direction = (p.raw?.bind fun raw => (Comment.normalize raw).direction) ∧
        p.toNode.childrenOf .description =
          p.raw?.toList.map fun raw => Node.descriptionOf (Comment.normalize raw).text := by
  have hhidden : f.toNode.isPrivate = false :=
    (congrArg Comment.isPrivate f.descriptionText_toNode).trans hpublic
  have hresult : (f.toNode.childrenOf .result).map (·.descriptionText) = [f.aboutReturned] := by
    rw [f.childrenOf_toNode_result]
    exact congrArg ([·]) (Node.text_descriptionOf f.aboutReturned)
  refine ⟨f.toNode, ?_, rfl, f.descriptionText_toNode, hresult, f.childrenOf_toNode, fun p _ =>
    ⟨congrArg Node.name p.toNode_eq, p.typeText_toNode, by rw [p.toNode_eq], p.childrenOf_toNode⟩⟩
  change ((State.start .empty).run text.toList).result.node = _
  rw [State.result_documentedFunction harguments htext]
  exact record_empty hhidden rfl (f.name.isRecordable_iff.mpr hname)

/-- A function with a body, three parameters and comments for all its parts but one parameter. -/
theorem scan_documentedFunction_directions :
    let first : ParameterLine :=
      { type := { words := [⟨"int", by decide⟩], words_ne_nil := by decide }
        name := ⟨"a", by decide⟩
        comment := some (.block ⟨" I - First ".toList, by decide⟩) }
    let second : ParameterLine :=
      { type := { words := [⟨"char", by decide⟩], stars := 1, words_ne_nil := by decide }
        name := ⟨"b", by decide⟩
        comment := some (.line ⟨" O - Second".toList, by decide⟩) }
    let third : ParameterLine :=
      { type := { words := [⟨"long", by decide⟩], words_ne_nil := by decide }
        name := ⟨"c", by decide⟩ }
    let f : DocumentedFunction :=
      { comment := some ⟨" Adds. ".toList, by decide⟩
        type := { words := [⟨"int", by decide⟩], words_ne_nil := by decide }
        returned := some ⟨" Sum ".toList, by decide⟩
        name := ⟨"add", by decide⟩
        parameters := [first, second, third]
        leads := by decide
        returns := by decide }
    let text := "/* Adds. */\nint/* Sum */ add(int a, /* I - First */\n  char *b, // O - Second\n  long c)\n\x7b return a; \x7d\n"
    f.Spelled text.toList ∧ ∃ function, scan text .empty = Node.empty.withChildren [function] ∧
      function.descriptionText = "Adds." ∧
      (function.childrenOf .result).map (·.descriptionText) = ["Sum"] ∧
      (function.childrenOf .argument).map (fun n => (n.attrs.direction, n.descriptionText)) =
        [(some "I", "First"), (some "O", "Second"), (none, "")] := by
  intro first second third f text
  have hgap : IsGap [' '] := by decide
  have hapart : ∀ ps : List Piece, [' '] = [] → ∃ c, ps.head? = some (.mark c) ∧ c ≠ '(' :=
    fun _ h => absurd h (List.cons_ne_nil _ _)
  have hfirst : first.Spelled ',' "int a, /* I - First */\n".toList :=
    ⟨[], _, " /* I - First */\n".toList, by decide, .word hgap (hapart _) .nil,
      ⟨" /* I - First */".toList, ⟨[' '], [], by decide, by decide, by decide⟩, .inl (by decide)⟩,
      by decide⟩
  have hsecond : second.Spelled ',' "  char *b, // O - Second\n".toList :=
    ⟨"  ".toList, _, " // O - Second\n".toList, by decide,
      .word hgap (hapart _) (.mark (by decide : IsGap []) .nil),
      ⟨" // O - Second".toList, ⟨[' '], by decide, by decide⟩, .inl (by decide)⟩, by decide⟩
  have hthird : third.Spelled ')' "  long c)\n".toList :=
    ⟨"  ".toList, _, "\n".toList, by decide, .word hgap (hapart _) .nil,
      ⟨[], (by decide : IsBlank []), .inl (by decide)⟩, by decide⟩
  have htext : f.Spelled text.toList :=
    ⟨[], ['\n'], _, _, [], _, ['\n'], by decide, by decide, .touching rfl .nil hgap,
      .cons hfirst (.cons hsecond (.last hthird)), by decide,
      .body (by decide +kernel : isBalanced " return a; ".toList = true), by decide, by decide +kernel⟩
  obtain ⟨function, hscan, -, habout, hresult, harguments, -⟩ :=
    scan_documentedFunction f (by decide) (by decide +kernel) (by decide +kernel) htext
  refine ⟨htext, function, hscan, habout.trans (by decide +kernel), hresult.trans (by decide +kernel), ?_⟩
  rw [harguments]
  decide +kernel

end HeaderDocs.Scan
