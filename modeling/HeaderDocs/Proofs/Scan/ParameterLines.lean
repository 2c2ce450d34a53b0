import HeaderDocs.Proofs.Scan.ArgumentLists
import HeaderDocs.Proofs.Scan.MemberVariables

/-!
# Parameters with comments behind them

The name of a parameter touches the mark behind it, which ends the parameter. A comment that follows
on the same line describes the argument, in whatever scope the function is declared.

* `State.run_plainPieces`: the words and stars of a type, where nothing ends them.
* `State.run_parameters`: the parameters of a function, with the parenthesis behind them.
-/
namespace HeaderDocs.Scan

open HeaderDocs.Text

/-! ## Words that are collected -/

/-- A context in which words are collected, whether or not it is an argument list. -/
structure Context.Gathers (c : Context) : Prop where
  braces : c.braces = 0
  joinable : c.joinable = false
  base : c.base = []

theorem Context.Gathers.withRun {c : Context} (hc : c.Gathers) (run : Run)
    (claim : Option (List Claim)) : ({ c with run, claim } : Context).Gathers :=
  ⟨hc.braces, hc.joinable, hc.base⟩

/-- The first word of a declaration may be the access of members. -/
def NoAccess (c : Context) (scope : Kind) (word : String) : Prop :=
  c.run = [] → scope.isRecord = true → isAccess (withoutColons word) = false

namespace OpenScope

variable {s : OpenScope}

theorem update_startRun (hc : s.context.Gathers) : s.update .startRun = s :=
  congrArg (fun context => ({ s with context } : OpenScope)) (Context.startRun_of_base hc.base)

theorem word_eq_declarationWord (hc : s.context.Gathers) {word : String}
    (haccess : NoAccess s.context s.node.kind word) (d : Char) :
    s.word word d =
      let words := s.context.run.texts
      if s.context.header.isNone && d == '(' && !words.contains "=" && words.head? != some "typedef"
      then s.startFunction word
      else if s.context.inArguments && (d == ')' || d == ',') then
        if word == "void" && s.context.run.isEmpty then s.update .dropRun
        else s.update fun c => (c.pushWord word).addArgument
      else if !s.context.run.isEmpty && s.context.header.isNone && (d == ';' || d == ',') then
        s.endDeclarator word d
      else s.update (·.pushWord word) := by
  unfold OpenScope.word OpenScope.declarationWord
  dsimp only
  rw [if_pos (by simpa using hc.braces), if_neg, update_startRun hc]
  simp only [Bool.and_eq_true, List.isEmpty_iff, not_and, Bool.not_eq_true, and_imp]
  exact haccess

theorem word_gathered (hc : s.context.Gathers) {word : String}
    (haccess : NoAccess s.context s.node.kind word) {d : Char} (hd : d ∉ ['(', ')', ',', ';']) :
    s.word word d = s.update (·.pushWord word) := by
  simp only [List.mem_cons, List.not_mem_nil, or_false, not_or] at hd
  rw [word_eq_declarationWord hc haccess]
  simp [hd]

theorem word_endsArgument (hc : s.context.Gathers) (hlists : s.context.inArguments = true)
    (hrun : s.context.run ≠ []) (word : String) {m : Char} (hm : m ∈ [',', ')']) :
    s.word word m = s.update fun c => (c.pushWord word).addArgument := by
  have hheader : s.context.header.isNone = false := by
    unfold Context.inArguments at hlists
    split at hlists
    · rename_i h
      rw [h]
      rfl
    · cases hlists
  rw [word_eq_declarationWord hc fun he => absurd he hrun]
  simp only [List.mem_cons, List.not_mem_nil, or_false] at hm
  rcases hm with rfl | rfl <;> simp [hheader, hlists, hrun]

end OpenScope

def Piece.IsPlain : Piece → Prop
  | word _ => True
  | mark c => c = '*'

theorem NamedType.isPlain_pieces (type : NamedType) : ∀ p ∈ type.pieces, p.IsPlain := by
  intro p hp
  rw [pieces, List.mem_append] at hp
  rcases hp with hp | hp
  · obtain ⟨w, -, rfl⟩ := List.mem_map.mp hp
    trivial
  · rw [List.eq_of_mem_replicate hp]
    rfl

namespace State

variable {t : State} {c : Context}

/-- A word before a character that does not end anything else. -/
theorem run_word_gathered (hc : c.Gathers) (w : Word)
    (haccess : NoAccess c t.scope.node.kind w.text) {d : Char} (hpart : isWordPart c.parens d = false)
    (hd : d ∉ ['(', ')', ',', ';']) (rest : List Char) :
    (t.inContext c).run (w.text.toList ++ d :: rest) =
      (t.inContext { c with run := c.run.pushWord w.text }).run (d :: rest) := by
  have hpush : ({ t.scope with context := c } : OpenScope).word w.text d =
      { t.scope with context := { c with run := c.run.pushWord w.text } } := by
    refine (OpenScope.word_gathered (s := { t.scope with context := c }) hc haccess hd).trans ?_
    simp only [OpenScope.update, Context.pushWord, Context.startRun_of_base hc.base]
  rw [run_word_inContext hc.joinable w hpart]
  exact congrArg (fun scope => State.run { t with mode := .plain, scope } (d :: rest)) hpush

/-- What stands behind a word of a type ends the word, and nothing else. -/
theorem exists_apart {ps : List Piece} {parens : Nat}
    (hnext : ∀ m, ps.head? = some (.mark m) → isWordPart parens m = false ∧ m ∉ ['(', ')', ',', ';'])
    {gap cs : List Char} (hgap : IsGap gap)
    (hsep : gap = [] → ∃ m, ps.head? = some (.mark m) ∧ m ≠ '(')
    (hcs : Spaced ps cs) (rest : List Char) :
    ∃ d after, gap ++ (cs ++ rest) = d :: after ∧ isWordPart parens d = false ∧
      d ∉ ['(', ')', ',', ';'] := by
  cases gap with
  | cons d gap =>
    have hspace : isSpace d = true := (isGap_cons.mp hgap).1
    exact ⟨d, gap ++ (cs ++ rest), rfl, isWordPart_of_isSpace hspace _,
      notMem_of_class (by decide) hspace⟩
  | nil =>
    obtain ⟨m, hm, -⟩ := hsep rfl
    obtain ⟨hpart, hmark⟩ := hnext m hm
    obtain ⟨ps, rfl⟩ := List.head?_eq_some_iff.mp hm
    cases hcs with
    | @mark m gap ps cs hgap hcs => exact ⟨m, gap ++ cs ++ rest, rfl, hpart, hmark⟩

theorem isWordPart_star (parens : Nat) : isWordPart parens '*' = false := by
  simp [isWordPart]
  decide

/-- Reading words and stars, whatever stands behind them. -/
theorem run_plainPieces {ps qs : List Piece} {cs : List Char} (hcs : Spaced (ps ++ qs) cs)
    (hplain : ∀ p ∈ ps, p.IsPlain)
    (hnext : ∀ m, qs.head? = some (.mark m) →
      isWordPart c.parens m = false ∧ m ∉ ['(', ')', ',', ';'])
    (hc : c.Gathers) (hfirst : c.run = [] → ∀ m, ps.head? ≠ some (.mark m))
    (haccess : ∀ w, ps.head? = some (.word w) → NoAccess c t.scope.node.kind w.text)
    (rest : List Char) :
    ∃ claim cs', (claim = none ∨ claim = c.claim) ∧ Spaced qs cs' ∧
      (t.inContext c).run (cs ++ rest) =
        (t.inContext { c with run := ps.foldl Run.pushPiece c.run, claim }).run (cs' ++ rest) := by
  induction ps generalizing c cs with
  | nil => exact ⟨c.claim, cs, .inr rfl, hcs, rfl⟩
  | cons p ps ih =>
    have hmore : ∀ q ∈ ps, q.IsPlain := fun q hq => hplain q (List.mem_cons_of_mem _ hq)
    have hbehind : ∀ m, (ps ++ qs).head? = some (.mark m) →
        isWordPart c.parens m = false ∧ m ∉ ['(', ')', ',', ';'] := by
      intro m hm
      cases ps with
      | nil => exact hnext m hm
      | cons q ps =>
        have hq : q = .mark m := Option.some.inj hm
        have hstar : q.IsPlain := hplain q (by simp)
        rw [hq] at hstar
        obtain rfl : m = '*' := hstar
        exact ⟨isWordPart_star _, by decide⟩
    -- behind the piece the run is not empty, and the rest follows by induction
    have hrest : ∀ (run : Run) (gap cs' : List Char), run ≠ [] → IsGap gap → Spaced (ps ++ qs) cs' →
        ∃ claim cs'', (claim = none ∨ claim = c.claim) ∧ Spaced qs cs'' ∧
          (t.inContext { c with run }).run (gap ++ (cs' ++ rest)) =
            (t.inContext { c with run := ps.foldl Run.pushPiece run, claim }).run (cs'' ++ rest) := by
      intro run gap cs' hne hgap hcs'
      obtain ⟨claim, hclaim, hgap'⟩ := run_gap_kept (t := t) (c := { c with run }) hc.joinable hgap
        (cs' ++ rest)
      obtain ⟨claim', cs'', hclaim', hcs'', hread⟩ := ih (c := { c with run, claim }) hcs' hmore hnext
        (hc.withRun _ claim) (fun he => absurd he hne) (fun _ _ he => absurd he hne)
      exact ⟨claim', cs'', hclaim'.elim .inl (fun he => he ▸ hclaim), hcs'', hgap'.trans hread⟩
    rw [List.cons_append] at hcs
    cases hcs with
    | @word w gap _ cs' hgap hsep hcs' =>
      obtain ⟨d, after, htext, hpart, hd⟩ := exists_apart hbehind hgap hsep hcs' rest
      obtain ⟨claim, cs'', hclaim, hcs'', hread⟩ := hrest (c.run.pushWord w.text) gap cs'
        (Run.pushPiece_ne_nil c.run (.word w)) hgap hcs'
      refine ⟨claim, cs'', hclaim, hcs'', Eq.trans ?_ hread⟩
      rw [List.append_assoc, List.append_assoc, htext]
      exact run_word_gathered hc w (haccess w rfl) hpart hd after
    | @mark m gap _ cs' hgap hcs' =>
      obtain rfl : m = '*' := hplain _ List.mem_cons_self
      have hrun : c.run ≠ [] := fun he => hfirst he _ rfl
      have hpush : c.pushMark "*" = { c with run := c.run.pushMark "*" } := by
        have hstart : c.startRun = c := Context.startRun_of_base hc.base
        rw [Context.pushMark_of_startRun (by rwa [hstart]), hstart]
      have hstep : (t.inContext c).step '*' = t.inContext { c with run := c.run.pushMark "*" } := by
        rw [step_mark_inContext hc.joinable (f := (·.pushMark "*")) (by decide) (by decide)
          fun _ => rfl, hpush]
      obtain ⟨claim, cs'', hclaim, hcs'', hread⟩ := hrest (c.run.pushMark "*") gap cs'
        (Run.pushPiece_ne_nil c.run (.mark '*')) hgap hcs'
      refine ⟨claim, cs'', hclaim, hcs'', Eq.trans ?_ hread⟩
      rw [List.cons_append, List.append_assoc]
      exact congrArg (State.run · _) hstep

theorem run_type {type : NamedType} {cs : List Char} (hcs : Spaced type.pieces cs) (hc : c.Gathers)
    (haccess : ∀ w, type.words.head? = some w → NoAccess c t.scope.node.kind w.text)
    (rest : List Char) :
    ∃ claim, (claim = none ∨ claim = c.claim) ∧ (t.inContext c).run (cs ++ rest) =
      (t.inContext { c with run := type.pieces.foldl Run.pushPiece c.run, claim }).run rest := by
  obtain ⟨first, words, hwords⟩ := List.exists_cons_of_ne_nil type.words_ne_nil
  have hhead : type.pieces.head? = some (.ofName first) := by
    rw [NamedType.pieces, hwords]
    rfl
  obtain ⟨claim, cs', hclaim, hnil, hread⟩ := run_plainPieces (t := t)
    (show Spaced (type.pieces ++ []) cs by rwa [List.append_nil]) type.isPlain_pieces
    (fun _ he => by cases he) hc
    (fun _ m he => by rw [hhead] at he; cases he)
    (fun w he => by
      rw [hhead] at he
      cases he
      exact haccess first (by rw [hwords]; rfl)) rest
  cases hnil
  exact ⟨claim, hclaim, hread⟩

end State

/-! ## Parameters -/

/-- A parameter with the comment behind the mark after it. -/
structure ParameterLine where
  type : NamedType
  name : Name
  comment : Option SourceComment := none

namespace ParameterLine

variable (p : ParameterLine)

/-- The name of the parameter, and what stands behind the mark after it. -/
def ended : ConstantLine := { name := p.name, comment := p.comment }

/-- The text of the comment, if it says something. -/
def raw? : Option String := p.ended.raw?

/-- What stands behind the mark: a line comment ends with its line. -/
def Remark (cs : List Char) : Prop :=
  ∃ remark, p.ended.Ends remark ∧
    (cs = remark ++ ['\n'] ∨ cs = remark ∧ ∀ c, p.comment ≠ some (.line c))

/-- How a parameter is written with the mark behind it. -/
def Spelled (m : Char) (cs : List Char) : Prop :=
  ∃ before typed remark, IsGap before ∧ Spaced p.type.pieces typed ∧ p.Remark remark ∧
    cs = before ++ (typed ++ (p.name.text.toList ++ m :: remark))

def toDeclarator : Declarator where
  name := p.name.text
  type := p.type.toRun false
  initial := none

/-- The node of the argument, described by the comment. -/
def toNode : Node := (p.toDeclarator.toNode .argument).describeIf p.raw?

theorem raw?_ne_empty : ∀ raw ∈ p.raw?, raw ≠ "" := fun _ hraw =>
  bne_iff_ne.mp (Option.mem_filter_iff.mp hraw).2

end ParameterLine

/-- How the parameters of a function are written, with the parenthesis behind them. -/
inductive ParametersText : List ParameterLine → List Char → Prop
  | last {p : ParameterLine} {cs : List Char} : p.Spelled ')' cs → ParametersText [p] cs
  | cons {p : ParameterLine} {ps : List ParameterLine} {cs rest : List Char} :
      p.Spelled ',' cs → ParametersText ps rest → ParametersText (p :: ps) (cs ++ rest)

/-! ## Reading parameters -/

/-- In the argument list of a function, before a parameter or behind the mark after one. -/
def Context.betweenArguments (access : Option String) (h : Header) : Context :=
  { access, parens := 1, header := some h }

namespace OpenScope

variable {s : OpenScope} {c : Context} {h : Header}

theorem takeComment_argument (before : List Node) {last : Node}
    (hheader : c.header = some (h.extend (before ++ [last]))) (hjoinable : c.joinable = false)
    {raw? : Option String} (hraw : ∀ raw ∈ raw?, raw ≠ "")
    (hpublic : ∀ raw ∈ raw?, Comment.isPrivate raw = false) (line : Bool) :
    ∃ claim, ({ s with context := { c with claim := some [.argument] } } : OpenScope).takeComment
        (raw?.getD "") line =
      { s with context :=
        { c with header := some (h.extend (before ++ [last.describeIf raw?])), claim } } := by
  cases raw? with
  | none =>
    refine ⟨some [.argument], ?_⟩
    rw [Node.describeIf, ← hheader]
    rfl
  | some raw =>
    refine ⟨none, ?_⟩
    have hne : raw ≠ "" := hraw raw rfl
    have hshown : Comment.isPrivate raw = false := hpublic raw rfl
    have hdescribe := h.describeLast before last raw
    unfold takeComment settleClaims
    simp only [Option.getD_some, String.isEmpty_iff, hne, hshown, if_false, Bool.false_eq_true,
      List.foldl_cons, List.foldl_nil, describeClaim, OpenScope.update, hheader, Option.map_some,
      hdescribe, Node.describeIf]
    rw [← hjoinable]

end OpenScope

namespace State

variable {t : State} {c : Context} {h : Header}

theorem run_remark (hmode : t.mode = .plain) {p : ParameterLine} {cs : List Char}
    (hcs : p.Remark cs) : ∃ line, ∃ f : Context → Context,
      (∀ c, ∃ claim joinable, f c = { c with claim, joinable }) ∧
      t.run cs = (t.update (·.takeComment (p.raw?.getD "") line)).update (·.update f) := by
  obtain ⟨remark, hends, rfl | ⟨rfl, hblock⟩⟩ := hcs
  · obtain ⟨line, joinable, hread⟩ := run_ends hmode hends
    exact ⟨line, fun c => { c with claim := none, joinable }, fun c => ⟨none, joinable, rfl⟩, hread⟩
  · exact ⟨false, id, fun c => ⟨c.claim, c.joinable, rfl⟩, run_ends_inLine hmode hends hblock⟩

theorem step_endsArgument (access : Option String) (hopen : h.argumentsOpen = true) {m : Char}
    (hm : m ∈ [',', ')']) (claim : Option (List Claim)) :
    (t.inContext { Context.betweenArguments access h with claim }).step m =
      t.inContext { (Context.betweenArguments access h).endAt m with claim } := by
  have hlists : ({ Context.betweenArguments access h with claim } : Context).inArguments = true := by
    simp [Context.inArguments, Context.betweenArguments, hopen]
  simp only [List.mem_cons, List.not_mem_nil, or_false] at hm
  rcases hm with rfl | rfl
  · rw [step_mark_inContext rfl (f := .comma) (by decide) (by decide) fun _ => rfl, Context.comma,
      if_neg (by exact Bool.false_ne_true), if_pos hlists]
    rfl
  · rw [step_mark_inContext rfl (f := .closeParen) (by decide) (by decide) fun _ => rfl,
      Context.closeParen, if_pos hlists]
    rfl

theorem run_declaredArgument (access : Option String) (hopen : h.argumentsOpen = true)
    (p : ParameterLine) {typed : List Char} (htyped : Spaced p.type.pieces typed)
    (haccess : ∀ w, p.type.words.head? = some w → t.scope.node.kind.isRecord = true →
      isAccess (withoutColons w.text) = false)
    {m : Char} (hm : m ∈ [',', ')']) (claim : Option (List Claim)) (rest : List Char) :
    (t.inContext { Context.betweenArguments access h with claim }).run
        (typed ++ (p.name.text.toList ++ m :: rest)) =
      (t.inContext { (Context.betweenArguments access
          (h.extend [p.toDeclarator.toNode .argument])).endAt m with claim := some [.argument] }).run
        rest := by
  let c : Context := { Context.betweenArguments access h with claim }
  have hc : c.Gathers := ⟨rfl, rfl, rfl⟩
  obtain ⟨claim', -, htype⟩ := run_type (t := t) htyped hc (fun w hw _ => haccess w hw)
    (p.name.text.toList ++ m :: rest)
  let run := p.type.pieces.foldl Run.pushPiece []
  let c' : Context := { c with run, claim := claim' }
  have hne : run ≠ [] := by
    rw [show run = _ from p.type.foldl_pieces awaits_nil]
    simpa using p.type.toRun_ne_nil false
  have hlists : c'.inArguments = true := by
    simp [Context.inArguments, Context.betweenArguments, c', c, hopen]
  have hpart : isWordPart c'.parens m = false := by
    simp only [List.mem_cons, List.not_mem_nil, or_false] at hm
    rcases hm with rfl | rfl
    · exact (by decide : isWordPart 1 ',' = false)
    · exact (by decide : isWordPart 1 ')' = false)
  have hadd : (c'.pushWord p.name.text).addArgument =
      { Context.betweenArguments access (h.extend [p.toDeclarator.toNode .argument]) with
        claim := some [.argument] } := by
    have hpush : c'.pushWord p.name.text = { c' with run := run.pushWord p.name.text } := by
      rw [Context.pushWord, Context.startRun_of_run hne]
    have hd : Declarator.ofRun? (run.pushWord p.name.text) = some p.toDeclarator :=
      p.type.ofRun?_pushWord p.name
    rw [hpush]
    simp only [Context.addArgument, c', c, Context.betweenArguments, hd]
    rfl
  have hword : ({ t.scope with context := c' } : OpenScope).word p.name.text m =
      { t.scope with context := { Context.betweenArguments access
          (h.extend [p.toDeclarator.toNode .argument]) with claim := some [.argument] } } := by
    refine (OpenScope.word_endsArgument (s := { t.scope with context := c' }) ⟨rfl, rfl, rfl⟩ hlists hne
      _ hm).trans ?_
    exact congrArg (fun context => ({ t.scope with context } : OpenScope)) hadd
  have hended : (t.inContext c').update (·.word p.name.text m) = t.inContext
      { Context.betweenArguments access (h.extend [p.toDeclarator.toNode .argument]) with
        claim := some [.argument] } :=
    congrArg (fun scope => ({ t with mode := .plain, scope } : State)) hword
  have hname := run_word_inContext (t := t) (c := c') rfl p.name.toWord hpart rest
  rw [show p.name.toWord.text = p.name.text from rfl, hended] at hname
  refine htype.trans (hname.trans ?_)
  exact congrArg (State.run · rest) (step_endsArgument (h := h.extend [p.toDeclarator.toNode .argument])
    access hopen hm (some [.argument]))

/-- White space behind the mark after a parameter. -/
theorem run_gap_pending (c : Context) (claim : Option (List Claim)) (joinable : Bool)
    {gap : List Char} (hgap : IsGap gap) (rest : List Char) :
    ∃ claim' joinable', (t.inContext { c with claim, joinable }).run (gap ++ rest) =
      (t.inContext { c with claim := claim', joinable := joinable' }).run rest := by
  induction gap generalizing claim joinable with
  | nil => exact ⟨claim, joinable, rfl⟩
  | cons d gap ih =>
    obtain ⟨hspace, hrest⟩ := isGap_cons.mp hgap
    obtain ⟨claim₁, joinable₁, hstep⟩ : ∃ claim' joinable',
        (t.inContext { c with claim, joinable }).step d =
          t.inContext { c with claim := claim', joinable := joinable' } := by
      by_cases hd : d = '\n'
      · subst hd
        exact ⟨none, false, run_newline (t := t.inContext { c with claim, joinable }) rfl⟩
      · exact ⟨claim, joinable, step_space rfl hspace hd⟩
    obtain ⟨claim₂, joinable₂, hread⟩ := ih claim₁ joinable₁ hrest
    refine ⟨claim₂, joinable₂, ?_⟩
    change ((t.inContext _).step d).run (gap ++ rest) = _
    rw [hstep, hread]

theorem run_parameter (access : Option String) (hopen : h.argumentsOpen = true) {p : ParameterLine}
    (haccess : ∀ w, p.type.words.head? = some w → t.scope.node.kind.isRecord = true →
      isAccess (withoutColons w.text) = false)
    (hpublic : ∀ raw ∈ p.raw?, Comment.isPrivate raw = false) {m : Char} (hm : m ∈ [',', ')'])
    {cs : List Char} (hcs : p.Spelled m cs) (claim : Option (List Claim)) (joinable : Bool) :
    ∃ claim' joinable',
      (t.inContext { Context.betweenArguments access h with claim, joinable }).run cs =
        t.inContext { (Context.betweenArguments access (h.extend [p.toNode])).endAt m with
          claim := claim', joinable := joinable' } := by
  obtain ⟨before, typed, remark, hbefore, htyped, hremark, rfl⟩ := hcs
  obtain ⟨claim₁, joinable₁, hgap⟩ := run_gap_pending (t := t) (Context.betweenArguments access h) claim
    joinable hbefore (typed ++ (p.name.text.toList ++ m :: remark))
  have hstart := run_pieces_joinable (t := t)
    (c := { Context.betweenArguments access h with claim := claim₁ }) htyped joinable₁
    (p.name.text.toList ++ m :: remark)
  have hread := run_declaredArgument access hopen p htyped haccess hm claim₁ remark
  let arg := p.toDeclarator.toNode .argument
  let c : Context := (Context.betweenArguments access (h.extend [arg])).endAt m
  obtain ⟨line, f, hf, hend⟩ := run_remark (t := t.inContext { c with claim := some [.argument] }) rfl
    hremark
  have htaken : ∃ claim, ({ t.scope with context := { c with claim := some [.argument] } } :
      OpenScope).takeComment (p.raw?.getD "") line = { t.scope with context :=
        { (Context.betweenArguments access (h.extend [p.toNode])).endAt m with claim } } := by
    simp only [List.mem_cons, List.not_mem_nil, or_false] at hm
    rcases hm with rfl | rfl
    · exact OpenScope.takeComment_argument (h := h) [] rfl rfl p.raw?_ne_empty hpublic line
    · exact OpenScope.takeComment_argument (h := { h with argumentsOpen := false }) [] rfl
        rfl p.raw?_ne_empty hpublic line
  obtain ⟨claim₂, htaken⟩ := htaken
  obtain ⟨claim', joinable', hlast⟩ :=
    hf { (Context.betweenArguments access (h.extend [p.toNode])).endAt m with claim := claim₂ }
  refine ⟨claim', joinable', hgap.trans (hstart.trans (hread.trans (hend.trans ?_)))⟩
  refine (congrArg (fun scope => ({ t with mode := .plain, scope } : State).update (·.update f))
    htaken).trans ?_
  exact congrArg (fun context => t.inContext context) hlast

theorem run_parameters (access : Option String) (hopen : h.argumentsOpen = true)
    {ps : List ParameterLine}
    (haccess : ∀ p ∈ ps, ∀ w, p.type.words.head? = some w → t.scope.node.kind.isRecord = true →
      isAccess (withoutColons w.text) = false)
    (hpublic : ∀ p ∈ ps, ∀ raw ∈ p.raw?, Comment.isPrivate raw = false)
    {cs : List Char} (hcs : ParametersText ps cs) (claim : Option (List Claim)) (joinable : Bool) :
    ∃ claim' joinable',
      (t.inContext { Context.betweenArguments access h with claim, joinable }).run cs =
        t.inContext
          { access, header := some { h.extend (ps.map (·.toNode)) with argumentsOpen := false }
            claim := claim', joinable := joinable' } := by
  induction hcs generalizing h claim joinable with
  | @last p cs hp =>
    exact run_parameter access hopen (haccess p List.mem_cons_self) (hpublic p List.mem_cons_self)
      (by decide) hp claim joinable
  | @cons p ps cs rest hp _ ih =>
    obtain ⟨claim₁, joinable₁, hfirst⟩ := run_parameter access hopen (haccess p List.mem_cons_self)
      (hpublic p List.mem_cons_self) (by decide) hp claim joinable
    obtain ⟨claim₂, joinable₂, hmore⟩ := ih (h := h.extend [p.toNode]) hopen
      (fun q hq => haccess q (List.mem_cons_of_mem _ hq))
      (fun q hq => hpublic q (List.mem_cons_of_mem _ hq)) claim₁ joinable₁
    refine ⟨claim₂, joinable₂, ?_⟩
    rw [run_append, hfirst]
    refine hmore.trans ?_
    rw [Header.extend_extend]
    rfl

end State

/-! ## The name before the parameters -/

def Context.headerOf (c : Context) (name : Name) : Header where
  node :=
    { kind := .function
      attrs := { name := some name.text, scope := c.access }
      children := (OpenScope.resultOf? c.run c.runComment).toList ++
        [Node.descriptionOf (Comment.normalize (c.comment.getD "")).text] }
  typed := !c.run.isEmpty

theorem OpenScope.word_startsFunction {s : OpenScope} (hc : s.context.Gathers)
    (hheader : s.context.header = none) (name : Name)
    (haccess : NoAccess s.context s.node.kind name.text) (hequals : "=" ∉ s.context.run.texts)
    (htypedef : s.context.run.texts.head? ≠ some "typedef")
    (hleft : s.context.run.texts.head?.any (isLeftOut s.node.kind) = false) :
    s.word name.text '(' =
      { s with context :=
        { s.context with
          run := [], runComment := none, comment := none
          header := some (s.context.headerOf name) } } := by
  have hjoinable := hc.joinable
  rw [word_eq_declarationWord hc haccess]
  dsimp only
  rw [if_pos (by simp [hheader, hequals, htypedef]), startFunction]
  dsimp only
  rw [if_neg (by simp [hleft]), splitQualified_of_notMem (name.notMem (by decide)),
    describe_undescribed (by decide : Kind.function ≠ .argument) kind_of_resultOf?]
  simp only [OpenScope.update, Context.takeComment, Context.dropRun, Context.headerOf, ← hjoinable]

theorem State.run_functionName {t : State} {c : Context} (hc : c.Gathers) (hheader : c.header = none)
    (hparens : c.parens = 0) (name : Name) (haccess : NoAccess c t.scope.node.kind name.text)
    (hequals : "=" ∉ c.run.texts) (htypedef : c.run.texts.head? ≠ some "typedef")
    (hleft : c.run.texts.head?.any (isLeftOut t.scope.node.kind) = false) (rest : List Char) :
    (t.inContext c).run (name.text.toList ++ '(' :: rest) =
      (t.inContext
        { c with
          parens := 1, run := [], runComment := none, comment := none
          header := some (c.headerOf name) }).run rest := by
  have hname := run_word_inContext (t := t) (c := c) hc.joinable name.toWord
    (by rw [hparens]; decide : isWordPart c.parens '(' = false) rest
  let c' : Context :=
    { c with run := [], runComment := none, comment := none, header := some (c.headerOf name) }
  have hstarted : (t.inContext c).update (·.word name.text '(') = t.inContext c' :=
    congrArg (fun scope => ({ t with mode := .plain, scope } : State))
      (OpenScope.word_startsFunction (s := { t.scope with context := c }) hc hheader name haccess hequals
        htypedef hleft)
  rw [show name.toWord.text = name.text from rfl, hstarted] at hname
  have hopen : c'.openParen = { c' with parens := 1 } := by
    have hstart : c'.startRun = c' := Context.startRun_of_base hc.base
    unfold Context.openParen Context.pushMark
    rw [hstart]
    simp [c', hparens]
  have hstep : (t.inContext c').step '(' = t.inContext { c' with parens := 1 } := by
    rw [step_mark_inContext (c := c') hc.joinable (m := '(') (f := .openParen) (by decide) (by decide)
      fun _ => rfl, hopen]
  exact hname.trans (congrArg (State.run · rest) hstep)

end HeaderDocs.Scan
