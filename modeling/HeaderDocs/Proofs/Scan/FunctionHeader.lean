import HeaderDocs.Proofs.Scan.DeclaratorParts
import HeaderDocs.Proofs.Scan.Spelling
import HeaderDocs.Proofs.Text.Occurrence

/-!
# Reading the header of a function

At the parenthesis after the name of a prototype a `Header` is started, and every parameter becomes
an argument of it. A parameter is read the same way whether its last word touches the mark after it
or not, although the scanner then ends it at the word already.

* `leads_prototype`: all tokens up to the semicolon lead to the header of the function.
-/
namespace HeaderDocs.Scan

open HeaderDocs.Text

/-! ## The parts of a run -/

namespace WrittenType

theorem closeUp_toRun (t : WrittenType) : Run.closeUp t.toRun = t.toRun := by
  obtain ⟨first, rest, -, hrun⟩ := t.toRun_eq
  rw [hrun]
  rfl

theorem toRun_ne_nil (t : WrittenType) : t.toRun ≠ [] := by
  obtain ⟨first, rest, -, hrun⟩ := t.toRun_eq
  rw [hrun]
  exact List.cons_ne_nil _ _

theorem texts_starRun (n : Nat) : Run.texts (starRun n) = List.replicate n "*" := by
  cases n <;> simp [starRun, Run.texts, List.replicate_succ]

theorem texts_toRun (t : WrittenType) : Run.texts t.toRun = t.texts ++ List.replicate t.stars "*" := by
  rw [toRun, Run.texts, List.map_append]
  congr 1
  · exact (Run.texts_closeUp _).trans (by simp [Run.texts, Function.comp_def])
  · exact texts_starRun t.stars

/-- A fragment of a type is a word or a star. -/
theorem notMem_texts_toRun (t : WrittenType) {text : String}
    (hword : ∀ w : Identifier, w.text ≠ text) (hstar : text ≠ "*") : text ∉ Run.texts t.toRun := by
  rw [texts_toRun, List.mem_append, not_or]
  refine ⟨fun hm => ?_, fun hm => hstar (List.eq_of_mem_replicate hm)⟩
  obtain ⟨w, -, hw⟩ := List.mem_map.mp hm
  exact hword w hw

end WrittenType

theorem PlainWord.text_ne (w : PlainWord) {text : String}
    (h : text.toList.head?.any (!isAsciiWordChar ·) = true) : w.text ≠ text := by
  rintro rfl
  obtain ⟨hne, hchars⟩ := w.chars
  rw [List.head?_eq_some_head hne, Option.any_some, hchars _ (List.head_mem hne)] at h
  cases h

/-- The name is the last word before the value, and the type is what stands before the name. -/
theorem ofRun?_named {type : Run} (htype : "=" ∉ type.texts) (name : Fragment)
    (hname : name.text ≠ "=") (hclose : name.startsWith ')' = false) (value : Run)
    (hvalue : ∀ f ∈ value.head?, f.text = "=") :
    Declarator.ofRun? (type ++ name :: value) =
      some { name := name.text, type := type.closeUp
             initial := value.head?.map fun _ => Run.text value.tail } := by
  have hdeclared : "=" ∉ Run.texts (type ++ [name]) := by
    simpa [Run.texts] using ⟨by simpa [Run.texts] using htype, fun he => hname he.symm⟩
  have hsplit : type ++ name :: value = type ++ [name] ++ value := by simp
  have hparts : Declarator.declaredPart (type ++ name :: value) = type ++ [name] ∧
      Declarator.initial? (type ++ name :: value) =
        value.head?.map fun _ => Run.text value.tail := by
    rw [hsplit]
    cases value with
    | nil =>
      rw [List.append_nil]
      exact ⟨Declarator.declaredPart_of_notMem hdeclared, Declarator.initial?_of_notMem hdeclared⟩
    | cons sign value =>
      exact ⟨Declarator.declaredPart_append hdeclared (hvalue sign rfl) value,
        Declarator.initial?_append hdeclared (hvalue sign rfl) value⟩
  unfold Declarator.ofRun?
  simp [hparts.1, hparts.2, Declarator.nameStart, hclose, Run.text, Fragment.toNode, Node.joinText,
    Node.word]

theorem ofRun?_parameter (t : WrittenType) (name : PlainWord) (spaced : Bool) (value : Run)
    (hvalue : ∀ f ∈ value.head?, f.text = "=") :
    Declarator.ofRun? (t.toRun ++ ⟨name.text, spaced⟩ :: value) =
      some { name := name.text, type := t.toRun
             initial := value.head?.map fun _ => Run.text value.tail } := by
  have hequals : "=" ∉ Run.texts t.toRun :=
    t.notMem_texts_toRun (fun w => w.text_ne (by decide)) (by decide)
  have hclose : Fragment.startsWith ⟨name.text, spaced⟩ ')' = false := by
    obtain ⟨hne, hchars⟩ := name.chars
    have hmark : name.text.toList.head hne ∉ [')'] :=
      notMem_of_class (by decide) (hchars _ (List.head_mem hne))
    simpa [Fragment.startsWith, List.head?_eq_some_head hne] using hmark
  have hd := ofRun?_named hequals ⟨name.text, spaced⟩ (name.text_ne (by decide)) hclose value
    hvalue
  rwa [t.closeUp_toRun] at hd

theorem ofRun?_valued (t : WrittenType) (name value : PlainWord) (spaced spacedValue : Bool) :
    Declarator.ofRun?
      (t.toRun ++ [⟨name.text, spaced⟩] ++ [⟨"=", true⟩] ++ [⟨value.text, spacedValue⟩]) =
        some { name := name.text, type := t.toRun, initial := some value.text } := by
  have hd := ofRun?_parameter t name spaced [⟨"=", true⟩, ⟨value.text, spacedValue⟩] (by simp)
  simpa [Run.text, Fragment.toNode, Node.joinText, Node.word] using hd

theorem exists_pushWord (run : Run) (word : String) :
    ∃ spaced, run.pushWord word = run ++ [⟨word, spaced⟩] := ⟨_, rfl⟩

/-! ## Arguments -/

def Header.extend (h : Header) (arguments : List Node) : Header :=
  { h with node := h.node.withChildren (h.node.children ++ arguments) }

theorem Header.extend_extend (h : Header) (first second : List Node) :
    (h.extend first).extend second = h.extend (first ++ second) := by
  simp [extend, Node.withChildren]

namespace Context

def listing (h : Header) (run : Run) : Context := { parens := 1, run, header := some h }

/-- What a mark that ends an argument does to the list. -/
def endAt (mark : Char) (c : Context) : Context :=
  if mark = ')' then
    { c with header := c.header.map ({ · with argumentsOpen := false }), parens := c.parens - 1 }
  else c

variable {h : Header} {run : Run} {claim : Option (List Claim)}

theorem collects_listing : (listing h run).Collects := ⟨rfl, rfl, rfl, rfl⟩

theorem endArgument_short (hrun : run.length ≤ 1) :
    ({ listing h run with claim } : Context).endArgument = { listing h [] with claim } := by
  unfold endArgument
  rw [if_neg (by exact Nat.not_lt.mpr hrun)]
  rfl

theorem addArgument_listing {d : Declarator} (hd : Declarator.ofRun? run = some d) :
    ({ listing h run with claim } : Context).addArgument =
      { listing (h.extend [d.toNode .argument]) [] with claim := some [.argument] } := by
  simp only [addArgument, listing, hd]
  rfl

theorem joinable_endAt (mark : Char) (c : Context) : (c.endAt mark).joinable = c.joinable := by
  unfold endAt
  split <;> rfl

theorem endAt_claim (mark : Char) (c : Context) (claim : Option (List Claim)) :
    ({ c with claim } : Context).endAt mark = { c.endAt mark with claim } := by
  unfold endAt
  split <;> rfl

end Context

variable {s : OpenScope} {h : Header} {run : Run} {ts : List Token} {w : PlainWord} {m : Char}

/-- A mark in an argument list ends the argument before it. -/
theorem step_terminator (hm : m ∈ [',', ')']) (hopen : h.argumentsOpen = true)
    (claim : Option (List Claim)) :
    (State.reading s { Context.listing h run with claim }).step m =
      State.reading s (({ Context.listing h run with claim } : Context).endArgument.endAt m) := by
  have harguments : ({ Context.listing h run with claim } : Context).inArguments = true := by
    simp [Context.inArguments, Context.listing, hopen]
  simp only [List.mem_cons, List.not_mem_nil, or_false] at hm
  rcases hm with rfl | rfl
  · rw [State.step_reading rfl (f := .comma) rfl, Context.comma, if_neg (by exact Bool.false_ne_true),
      if_pos harguments]
    rfl
  · rw [State.step_reading rfl (f := .closeParen) rfl, Context.closeParen, if_pos harguments]
    rfl

theorem leads_terminator_short (hm : m ∈ [',', ')']) (hopen : h.argumentsOpen = true)
    (hrun : run.length ≤ 1) :
    Leads s (.listing h run) (.mark m :: ts) ((Context.listing h []).endAt m) ts := by
  refine leads_mark (Context.joinable_endAt _ _) fun claim => ⟨claim, ?_⟩
  rw [step_terminator hm hopen, Context.endArgument_short hrun, Context.endAt_claim]

theorem leads_terminator (hm : m ∈ [',', ')']) (hopen : h.argumentsOpen = true)
    (hrun : 1 < run.length) {d : Declarator} (hd : Declarator.ofRun? run = some d) :
    Leads s (.listing h run) (.mark m :: ts)
      ((Context.listing (h.extend [d.toNode .argument]) []).endAt m) ts := by
  refine leads_mark (Context.joinable_endAt _ _) fun claim => ⟨some [.argument], ?_⟩
  rw [step_terminator hm hopen, Context.endArgument, if_pos (by exact hrun),
    Context.addArgument_listing hd, Context.endAt_claim]

/-- A word that touches the mark after it ends the argument before that mark does. -/
theorem word_listing (hroot : s.node.kind = .root) (hm : m ∈ [',', ')'])
    (hopen : h.argumentsOpen = true) (word : String) (claim : Option (List Claim)) :
    ({ s with context := { Context.listing h run with claim } } : OpenScope).word word m =
      { s with context :=
        if word == "void" && run.isEmpty then { Context.listing h run with claim }.dropRun
        else (({ Context.listing h run with claim } : Context).pushWord word).addArgument } := by
  have hc : ({ Context.listing h run with claim } : Context).Collects :=
    Context.collects_listing.withClaim claim
  have harguments : ({ Context.listing h run with claim } : Context).inArguments = true := by
    simp [Context.inArguments, Context.listing, hopen]
  have hrecord : s.node.kind.isRecord = false := by rw [hroot]; rfl
  have hmark : (m == ')' || m == ',') = true := by
    simp only [List.mem_cons, List.not_mem_nil, or_false] at hm
    rcases hm with rfl | rfl <;> rfl
  unfold OpenScope.word
  rw [if_pos (by exact rfl)]
  unfold OpenScope.declarationWord
  rw [if_neg (by simp [hrecord])]
  simp only [OpenScope.update, hc.startRun, harguments, hmark, Bool.and_true, if_true]
  rw [if_neg (by exact Bool.false_ne_true)]
  exact (apply_ite (fun context => ({ s with context } : OpenScope)) ..).symm

/-- A word before a mark that ends an argument. Whether it touches the mark must make no
difference. -/
theorem leads_wordBefore (hroot : s.node.kind = .root) (hm : m ∈ [',', ')']) {h' : Header}
    {c' : Context}
    (htouching : ∀ claim, ∃ claim',
      ({ s with context := { Context.listing h run with claim } } : OpenScope).word w.text m =
        { s with context := { Context.listing h' [] with claim := claim' } })
    (hended : Leads s (.listing h' []) (.mark m :: ts) c' ts)
    (happart : Leads s (.listing h (run.pushWord w.text)) (.mark m :: ts) c' ts) :
    Leads s (.listing h run) (.word w :: .mark m :: ts) c' ts := by
  intro claim cs hcs
  have hpart : ∀ mark, (Token.mark m :: ts).head? = some (.mark mark) →
      State.isWordPart 1 mark = false := by
    rintro mark he
    cases he
    simp only [List.mem_cons, List.not_mem_nil, or_false] at hm
    rcases hm with rfl | rfl <;> decide
  obtain ⟨d, gap, cs', hgap, hcs', hmark, hspace, hword⟩ :=
    exists_run_word (c := { Context.listing h run with claim }) (s := s) rfl hpart hcs
  rw [hword]
  by_cases hnil : gap = []
  · subst hnil
    cases hmark rfl
    obtain ⟨claim', htouching⟩ := htouching claim
    have hupdate : (State.reading s { Context.listing h run with claim }).update (·.word w.text m) =
        State.reading s { Context.listing h' [] with claim := claim' } :=
      congrArg (fun scope => ({ scope } : State)) htouching
    rw [hupdate]
    exact hended claim' cs' hcs'
  · have hc : ({ Context.listing h run with claim } : Context).Collects :=
      Context.collects_listing.withClaim claim
    have hupdate : (State.reading s { Context.listing h run with claim }).update (·.word w.text d) =
        State.reading s { Context.listing h (run.pushWord w.text) with claim } :=
      congrArg (fun scope => ({ scope } : State))
        (hc.word hroot (notMem_of_class (by decide) (hspace hnil)) w.text)
    obtain ⟨claim', hgap'⟩ := run_gap_claim (c := .listing h (run.pushWord w.text)) rfl claim hgap cs'
    rw [hupdate, hgap']
    exact happart claim' cs' hcs'

theorem leads_lastWord (hroot : s.node.kind = .root) (hm : m ∈ [',', ')'])
    (hopen : h.argumentsOpen = true) (hrun : run ≠ []) {d : Declarator}
    (hd : Declarator.ofRun? (run.pushWord w.text) = some d) :
    Leads s (.listing h run) (.word w :: .mark m :: ts)
      ((Context.listing (h.extend [d.toNode .argument]) []).endAt m) ts := by
  have hlength : 1 < (run.pushWord w.text).length := by
    have hpos := List.length_pos_iff.mpr hrun
    simp only [Run.pushWord, Run.push, List.length_append, List.length_singleton]
    omega
  refine leads_wordBefore hroot hm (fun claim => ⟨some [.argument], ?_⟩)
    (leads_terminator_short hm hopen (Nat.zero_le 1)) (leads_terminator hm hopen hlength hd)
  have hc : ({ Context.listing h run with claim } : Context).Collects :=
    Context.collects_listing.withClaim claim
  rw [word_listing hroot hm hopen, if_neg (by simp [hrun]), Context.pushWord, hc.startRun]
  exact congrArg (fun context => ({ s with context } : OpenScope)) (Context.addArgument_listing hd)

theorem leads_void (hroot : s.node.kind = .root) (hm : m ∈ [',', ')'])
    (hopen : h.argumentsOpen = true) :
    Leads s (.listing h []) (.word voidWord :: .mark m :: ts) ((Context.listing h []).endAt m) ts :=
  leads_wordBefore hroot hm (fun claim => ⟨claim, word_listing hroot hm hopen "void" claim⟩)
    (leads_terminator_short hm hopen (Nat.zero_le 1))
    (leads_terminator_short hm hopen (Nat.le_refl 1))

/-! ## Parameters -/

theorem leads_parameter (hroot : s.node.kind = .root) (hm : m ∈ [',', ')'])
    (hopen : h.argumentsOpen = true) (p : Parameter) :
    Leads s (.listing h []) (p.tokens ++ .mark m :: ts)
      ((Context.listing (h.extend [p.toNode]) []).endAt m) ts := by
  have hnext : ∀ (w : PlainWord) (rest : List Token) mark,
      (Token.word w :: rest).head? ≠ some (.mark mark) := fun w rest mark he => by cases he
  have htype : Leads s (.listing h [])
      (p.type.tokens ++ .word p.name.toPlainWord :: (defaultTokens p.default ++ .mark m :: ts))
      (.listing h p.type.toRun) (.word p.name.toPlainWord :: (defaultTokens p.default ++ .mark m :: ts)) :=
    leads_type Context.collects_listing hroot rfl p.type (hnext _ _)
  rw [show p.tokens ++ .mark m :: ts =
    p.type.tokens ++ .word p.name.toPlainWord :: (defaultTokens p.default ++ .mark m :: ts) by
      simp [Parameter.tokens]]
  refine htype.trans ?_
  obtain ⟨spaced, hname⟩ := exists_pushWord p.type.toRun p.name.text
  cases hdefault : p.default with
  | none =>
    have hd := ofRun?_parameter p.type p.name.toPlainWord spaced [] (by simp)
    rw [← hname] at hd
    have hnode : Declarator.toNode .argument ⟨p.name.text, p.type.toRun, none⟩ = p.toNode := by
      simp [Declarator.toNode, Parameter.toNode, hdefault]
    rw [← hnode]
    exact leads_lastWord hroot hm hopen p.type.toRun_ne_nil hd
  | some value =>
    have hend : EndsInWord (p.type.toRun ++ [⟨p.name.text, spaced⟩]) :=
      endsInWord_concat _ p.name.toPlainWord spaced
    obtain ⟨spacedValue, hvalue⟩ := exists_pushWord
      (p.type.toRun ++ [⟨p.name.text, spaced⟩] ++ [⟨"=", true⟩]) value.text
    have hd := ofRun?_valued p.type p.name.toPlainWord value spaced spacedValue
    rw [← hvalue] at hd
    have hnode : Declarator.toNode .argument ⟨p.name.text, p.type.toRun, some value.text⟩ =
        p.toNode := by
      simp [Declarator.toNode, Parameter.toNode, hdefault]
    have hequals : ∀ mark, (defaultTokens (some value) ++ .mark m :: ts).head? = some (.mark mark) →
        mark ∈ ['*', '='] := by
      rintro mark he
      cases he
      decide
    have hword : Leads s (.listing h p.type.toRun)
        (.word p.name.toPlainWord :: (defaultTokens (some value) ++ .mark m :: ts))
        (.listing h (p.type.toRun ++ [⟨p.name.text, spaced⟩]))
        (defaultTokens (some value) ++ .mark m :: ts) :=
      leads_collect Context.collects_listing hroot hname hequals
    have hmark : Leads s (.listing h (p.type.toRun ++ [⟨p.name.text, spaced⟩]))
        (defaultTokens (some value) ++ .mark m :: ts)
        (.listing h (p.type.toRun ++ [⟨p.name.text, spaced⟩] ++ [⟨"=", true⟩]))
        (.word value :: .mark m :: ts) :=
      leads_equals Context.collects_listing hend.ne_nil (hend.pushMark "=")
    rw [← hnode]
    exact (hword.trans hmark).trans (leads_lastWord hroot hm hopen (by simp) hd)

theorem leads_parameters (hroot : s.node.kind = .root) (hopen : h.argumentsOpen = true)
    (p : Parameter) (ps : List Parameter) :
    Leads s (.listing h [])
      (p.tokens ++ ((ps.flatMap fun q => .mark ',' :: q.tokens) ++ .mark ')' :: ts))
      ((Context.listing (h.extend ((p :: ps).map (·.toNode))) []).endAt ')') ts := by
  induction ps generalizing h p with
  | nil => exact leads_parameter hroot (by decide) hopen p
  | cons q ps ih =>
    have hfirst : Leads s (.listing h [])
        (p.tokens ++ .mark ',' :: (q.tokens ++
          ((ps.flatMap fun q => .mark ',' :: q.tokens) ++ .mark ')' :: ts)))
        (.listing (h.extend [p.toNode]) []) _ :=
      leads_parameter hroot (by decide) hopen p
    have hrest := hfirst.trans (ih (h := h.extend [p.toNode]) hopen q)
    rw [Header.extend_extend] at hrest
    simpa using hrest

/-- What stands between the parentheses of a prototype. -/
theorem leads_parameterTokens (hroot : s.node.kind = .root) (hopen : h.argumentsOpen = true)
    (void : Bool) (ps : List Parameter) :
    Leads s (.listing h []) (parameterTokens void ps ++ .mark ')' :: ts)
      ((Context.listing (h.extend (ps.map (·.toNode))) []).endAt ')') ts := by
  cases ps with
  | cons p ps => simpa [parameterTokens] using leads_parameters hroot hopen p ps
  | nil =>
    have hnone : h.extend [] = h := by
      rw [Header.extend, List.append_nil, Node.withChildren_self]
    rw [List.map_nil, hnone]
    cases void with
    | false => exact leads_terminator_short (by decide) hopen (Nat.zero_le 1)
    | true => exact leads_void hroot (by decide) hopen

/-! ## The name of a function -/

theorem describe_undescribed {n : Node} (hk : n.kind ≠ .argument)
    (hn : ∀ c ∈ n.children, c.kind ≠ .description) (raw : String) :
    n.describe raw =
      { n with children := n.children ++ [Node.descriptionOf (Comment.normalize raw).text] } := by
  have hnone : n.children.eraseP (Node.isKind .description) = n.children :=
    List.eraseP_of_forall_not fun c hc => by simpa [Node.isKind] using hn c hc
  unfold Node.describe
  dsimp only
  rw [if_neg (by simp [hk]), Node.setDescription, hnone]

namespace Prototype

def header (p : Prototype) (comment : String) : Header :=
  { node :=
      { kind := .function
        attrs := { name := some p.name.text }
        children := p.result?.toList ++ [Node.descriptionOf (Comment.normalize comment).text] }
    typed := true }

theorem node_extend_header (p : Prototype) (comment : String) :
    ((p.header comment).extend (p.parameters.map (·.toNode))).node = p.toNode comment := by
  simp [Header.extend, header, toNode, Node.withChildren]

theorem resultOf?_toRun (p : Prototype) : OpenScope.resultOf? p.result.toRun none = p.result? := by
  obtain ⟨last, hlast⟩ : ∃ last, p.result.toRun.getLast? = some last :=
    ⟨_, List.getLast?_eq_some_getLast p.result.toRun_ne_nil⟩
  have htext : (p.result.texts ++ List.replicate p.result.stars "*").getLast? = some last.text := by
    rw [← WrittenType.texts_toRun, Run.texts, List.getLast?_map, hlast]
    rfl
  have hvoid : (last.text == "void") = p.result.isVoid := by
    have hreturns := p.returns
    unfold WrittenType.isVoid
    cases hstars : p.result.stars with
    | zero =>
      rw [hstars, List.replicate_zero, List.append_nil] at htext
      rw [Bool.eq_iff_iff]
      simp only [beq_self_eq_true, Bool.true_and, beq_iff_eq]
      refine ⟨fun hlast => hreturns hstars (hlast ▸ htext), fun htexts => ?_⟩
      rw [htexts] at htext
      exact (Option.some.inj htext).symm
    | succ n =>
      have hstar : "*" = last.text := by
        rw [hstars, List.getLast?_append_of_ne_nil _ (by simp), List.getLast?_replicate,
          if_neg (Nat.succ_ne_zero n)] at htext
        exact Option.some.inj htext
      simp [← hstar]
  unfold OpenScope.resultOf? result?
  rw [hlast]
  dsimp only
  rw [hvoid]
  split
  · rfl
  · refine congrArg some ((describe_undescribed (by simp) (fun c hc => ?_) "").trans ?_)
    · rw [List.mem_singleton.mp hc]
      exact (by decide : Kind.typeExpr ≠ .description)
    · rw [WrittenType.closeUp_toRun, Comment.normalize_empty]
      rfl

theorem header_describe (p : Prototype) (comment : String) :
    Node.describe
      { kind := .function
        attrs := { name := some p.name.text }
        children := p.result?.toList } comment = (p.header comment).node := by
  refine describe_undescribed (by simp) (fun c hc => ?_) comment
  unfold result? at hc
  split at hc
  · cases hc
  · rw [List.mem_singleton.mp hc]
    exact (by decide : Kind.result ≠ .description)

end Prototype

theorem splitQualified_of_notMem {word : String} (h : ':' ∉ word.toList) :
    OpenScope.splitQualified word = none := by
  have hcolon : breakOn? [':', ':'] word.toList = none := by
    cases hb : breakOn? [':', ':'] word.toList with
    | none => rfl
    | some parts => exact absurd ((infix_of_breakOn? hb).subset List.mem_cons_self) h
  rw [OpenScope.splitQualified, hcolon]

theorem splitQualified_plainWord (w : PlainWord) : OpenScope.splitQualified w.text = none :=
  splitQualified_of_notMem (w.notMem (by decide))

theorem kind_of_resultOf? {run : Run} {comment : Option String} :
    ∀ c ∈ (OpenScope.resultOf? run comment).toList, c.kind ≠ .description := by
  intro c hc
  rw [Option.mem_toList] at hc
  unfold OpenScope.resultOf? at hc
  split at hc
  · split at hc
    · cases hc
    · rw [← Option.some.inj hc, Node.kind_describe]
      exact (by decide : Kind.result ≠ .description)
  · cases hc

theorem word_prototype (hroot : s.node.kind = .root) (p : Prototype) (comment : Option String)
    (claim : Option (List Claim)) :
    ({ s with context := { run := p.result.toRun, comment, claim } } : OpenScope).word
        p.name.text '(' =
      { s with context := { claim, header := some (p.header (comment.getD "")) } } := by
  have hc : ({ run := p.result.toRun, comment, claim } : Context).Collects := ⟨rfl, rfl, rfl, rfl⟩
  have hrecord : s.node.kind.isRecord = false := by rw [hroot]; rfl
  have hequals : "=" ∉ Run.texts p.result.toRun :=
    p.result.notMem_texts_toRun (fun w => w.text_ne (by decide)) (by decide)
  obtain ⟨first, hfirst, htypedef, hstatic, hextern⟩ : ∃ first,
      (Run.texts p.result.toRun).head? = some first ∧
        first ≠ "typedef" ∧ first ≠ "static" ∧ first ≠ "extern" := by
    have hne : p.result.texts ≠ [] := by simpa [WrittenType.texts] using p.result.words_ne_nil
    have hleads := p.leads
    rw [List.head?_eq_some_head hne] at hleads
    refine ⟨_, by rw [WrittenType.texts_toRun, List.head?_append_of_ne_nil _ hne,
      List.head?_eq_some_head hne], by simpa using hleads⟩
  have hstart : ({ s with context := { run := p.result.toRun, comment, claim } } :
      OpenScope).startFunction p.name.text =
        { s with context := { claim, header := some (p.header (comment.getD "")) } } := by
    unfold OpenScope.startFunction
    dsimp only
    rw [if_neg (by simp [hfirst, isLeftOut, hstatic, hextern]), splitQualified_plainWord,
      p.resultOf?_toRun]
    dsimp only
    rw [p.header_describe]
    simp [p.result.toRun_ne_nil, OpenScope.update, Context.takeComment, Context.dropRun, Prototype.header]
  unfold OpenScope.word
  rw [if_pos (by exact rfl)]
  unfold OpenScope.declarationWord
  rw [if_neg (by simp [hrecord])]
  simp only [OpenScope.update, hc.startRun]
  rw [if_pos (by simp [hequals, hfirst, htypedef])]
  exact hstart

theorem leads_opening (hroot : s.node.kind = .root) (p : Prototype) (comment : Option String) :
    Leads s { run := p.result.toRun, comment } (.opening p.name.toPlainWord :: ts)
      (.listing (p.header (comment.getD "")) []) ts := by
  intro claim cs hcs
  cases hcs with
  | opening hgap hcs' =>
    rename_i gap cs'
    have hupdate : (State.reading s { run := p.result.toRun, comment, claim }).update
        (·.word p.name.text '(') =
          State.reading s { claim, header := some (p.header (comment.getD "")) } :=
      congrArg (fun scope => ({ scope } : State)) (word_prototype hroot p comment claim)
    have hparen : (State.reading s { claim, header := some (p.header (comment.getD "")) }).step '(' =
        State.reading s { Context.listing (p.header (comment.getD "")) [] with claim } :=
      State.step_reading rfl (f := .openParen) rfl
    obtain ⟨claim', hgap'⟩ :=
      run_gap_claim (c := .listing (p.header (comment.getD "")) []) rfl claim hgap cs'
    refine ⟨claim', cs', hcs', ?_⟩
    have hpart : State.isWordPart 0 '(' = false := by decide
    rw [State.run_word rfl p.name.toPlainWord hpart, hupdate]
    change ((State.reading s _).step '(').run _ = _
    rw [hparen, hgap']

theorem leads_prototype (hroot : s.node.kind = .root) (p : Prototype) (void : Bool)
    (comment : Option String) :
    ∃ h : Header, h.node = p.toNode (comment.getD "") ∧ h.typed = true ∧ h.home = none ∧
      Leads s { comment } (p.tokens void) { header := some h } [.mark ';'] := by
  have htype : Leads s { comment }
      (p.result.tokens ++ .opening p.name.toPlainWord ::
        (parameterTokens void p.parameters ++ [.mark ')', .mark ';']))
      { run := p.result.toRun, comment } _ :=
    leads_type ⟨rfl, rfl, rfl, rfl⟩ hroot rfl p.result fun m hm => by cases hm
  have hopen : Leads s { run := p.result.toRun, comment }
      (.opening p.name.toPlainWord :: (parameterTokens void p.parameters ++ [.mark ')', .mark ';']))
      (.listing (p.header (comment.getD "")) []) _ := leads_opening hroot p comment
  refine ⟨{ (p.header (comment.getD "")).extend (p.parameters.map (·.toNode)) with
    argumentsOpen := false }, p.node_extend_header _, rfl, rfl, ?_⟩
  rw [Prototype.tokens, List.append_assoc, List.cons_append]
  refine htype.trans (hopen.trans ?_)
  exact leads_parameterTokens hroot rfl void p.parameters

end HeaderDocs.Scan
