import HeaderDocs.Proofs.Scan.Variable

/-!
# Prototypes that are left out, with a comment that waits

Of a prototype after `static` or `extern` only the words up to the parenthesis are left out. The
parameters are collected as if they were a declaration of their own, which the semicolon ends: it is
passed over, unless a parameter has a default, in which case a variable with the name of that parameter
is recorded.

* `Prototype.passes_leftOut`, `Prototype.records_leftOut`.
-/
namespace HeaderDocs.Scan

open HeaderDocs.Text

variable {s : OpenScope} {run : Run} {comment : Option String} {claim : Option (List Claim)}
  {ts : List Token}

/-! ## Parameters without a header -/

def parameterMarks : List Char := ['*', '=', ',']

/-- A word or a mark that stands between the parentheses of a prototype. -/
def Token.IsPart : Token → Prop
  | word _ => True
  | opening _ => False
  | mark c => c ∈ parameterMarks

def Token.text : Token → String
  | word w => w.text
  | opening w => w.text
  | mark c => c.toString

/-- In parentheses that belong to no function header. -/
def Context.unread (run : Run) (comment : Option String) : Context := { parens := 1, run, comment }

theorem Context.Collects.pushWord {c : Context} (hc : c.Collects) (word : String) :
    c.pushWord word = { c with run := c.run.pushWord word } := by
  unfold Context.pushWord
  rw [hc.startRun]

theorem word_unread (hroot : s.node.kind = .root) (htypedef : run.texts.head? ≠ some "typedef")
    {d : Char} (hd : d ∉ ['(', ';']) (word : String) :
    ({ s with context := { Context.unread run comment with claim } } : OpenScope).word word d =
      { s with context := { Context.unread (run.pushWord word) comment with claim } } := by
  have hc : ({ Context.unread run comment with claim } : Context).Collects := ⟨rfl, rfl, rfl, rfl⟩
  have hrecord : s.node.kind.isRecord = false := by rw [hroot]; rfl
  simp only [List.mem_cons, List.not_mem_nil, or_false, not_or] at hd
  have hpush : ({ s with context := { Context.unread run comment with claim } } : OpenScope).update
      (·.pushWord word) =
        { s with context := { Context.unread (run.pushWord word) comment with claim } } :=
    congrArg (fun context => ({ s with context } : OpenScope)) (hc.pushWord word)
  have hend : run ≠ [] → ({ s with context := { Context.unread run comment with claim } } :
      OpenScope).endDeclarator word d =
        { s with context := { Context.unread (run.pushWord word) comment with claim } } := by
    intro hrun
    obtain ⟨f, fs, rfl⟩ := List.exists_cons_of_ne_nil hrun
    have hfirst : f.text ≠ "typedef" := by simpa [Run.texts] using htypedef
    unfold OpenScope.endDeclarator
    dsimp only
    rw [if_neg (by exact Bool.false_ne_true),
      if_neg (by simpa [Context.unread, Run.texts] using hfirst),
      if_neg (by exact Bool.false_ne_true)]
    exact hpush
  unfold OpenScope.word
  rw [if_pos (by exact rfl)]
  unfold OpenScope.declarationWord
  rw [if_neg (by simp [hrecord])]
  simp only [OpenScope.update, hc.startRun] at hpush ⊢
  rw [if_neg (by simp [hd]), if_neg (by exact Bool.false_ne_true)]
  split
  · rename_i hcomma
    refine hend fun hnil => ?_
    subst hnil
    exact absurd hcomma Bool.false_ne_true
  · exact hpush

theorem leads_unread_mark (hrun : run ≠ []) {m : Char} (hm : m ∈ parameterMarks) :
    ∃ run' : Run, run'.texts = run.texts ++ [m.toString] ∧
      Leads s (.unread run comment) (.mark m :: ts) (.unread run' comment) ts := by
  have hc : ∀ claim, ({ Context.unread run comment with claim } : Context).Collects :=
    fun claim => ⟨rfl, rfl, rfl, rfl⟩
  simp only [parameterMarks, List.mem_cons, List.not_mem_nil, or_false] at hm
  rcases hm with rfl | rfl | rfl
  · exact ⟨run.pushMark "*", Skim.texts_push _ _ _, leads_star (hc none) hrun rfl⟩
  · exact ⟨run.pushMark "=", Skim.texts_push _ _ _, leads_equals (hc none) hrun rfl⟩
  · refine ⟨run.push "," false, Skim.texts_push _ _ _, leads_mark rfl fun claim => ⟨claim, ?_⟩⟩
    rw [State.step_reading rfl (f := .comma) rfl]
    refine congrArg (State.reading s) ?_
    have hempty : run.isEmpty = false := by simpa using hrun
    simp [Context.comma, Context.unread, Context.inEnumeration, Context.inArguments,
      Context.pushIfStarted, hempty]

theorem leads_unread_word (hroot : s.node.kind = .root) (htypedef : run.texts.head? ≠ some "typedef")
    (w : PlainWord) (hts : ∀ m, ts.head? = some (.mark m) → m ∈ ')' :: parameterMarks) :
    Leads s (.unread run comment) (.word w :: ts) (.unread (run.pushWord w.text) comment) ts := by
  refine leads_word rfl rfl (fun m hm => ?_) fun claim d hd => word_unread hroot htypedef ?_ w.text
  · have hall : (')' :: parameterMarks).all (!State.isWordPart 1 ·) = true := by decide
    have hpart : State.isWordPart 1 m = false := by
      simpa using List.all_eq_true.mp hall m (hts m hm)
    exact hpart
  · rcases hd with hspace | hm
    · exact notMem_of_class (by decide) hspace
    · have hmark := hts d hm
      simp only [parameterMarks, List.mem_cons, List.not_mem_nil, or_false] at hmark
      rcases hmark with rfl | rfl | rfl | rfl <;> decide

theorem mem_parameterMarks {parts : List Token} (hparts : ∀ t ∈ parts, t.IsPart) :
    ∀ m, (parts ++ Token.mark ')' :: ts).head? = some (.mark m) → m ∈ ')' :: parameterMarks := by
  intro m hm
  cases parts with
  | nil =>
    cases hm
    exact List.mem_cons_self ..
  | cons u parts =>
    obtain rfl : u = .mark m := Option.some.inj hm
    have hpart : (Token.mark m).IsPart := hparts _ (List.mem_cons_self ..)
    exact List.mem_cons_of_mem _ hpart

/-- Parameters after a first word are collected. -/
theorem leads_unread (hroot : s.node.kind = .root) (hrun : run ≠ [])
    (htypedef : run.texts.head? ≠ some "typedef") (parts : List Token)
    (hparts : ∀ t ∈ parts, t.IsPart) :
    ∃ run' : Run, run'.texts = run.texts ++ parts.map (·.text) ∧
      Leads s (.unread run comment) (parts ++ .mark ')' :: ts) (.unread run' comment)
        (.mark ')' :: ts) := by
  induction parts generalizing run with
  | nil => exact ⟨run, by simp, .refl⟩
  | cons t parts ih =>
    have hrest : ∀ u ∈ parts, u.IsPart := fun u hu => hparts u (List.mem_cons_of_mem _ hu)
    obtain ⟨run₁, htexts, hleads⟩ : ∃ run₁ : Run, run₁.texts = run.texts ++ [t.text] ∧
        Leads s (.unread run comment) (t :: (parts ++ .mark ')' :: ts)) (.unread run₁ comment)
          (parts ++ .mark ')' :: ts) := by
      have hpart := hparts t (List.mem_cons_self ..)
      cases t with
      | word w => exact ⟨run.pushWord w.text, Skim.texts_push _ _ _,
          leads_unread_word hroot htypedef w (mem_parameterMarks hrest)⟩
      | opening w => exact hpart.elim
      | mark m => exact leads_unread_mark hrun hpart
    have hne : run₁ ≠ [] := by
      rintro rfl
      simp [Run.texts] at htexts
    have hhead : run₁.texts.head? = run.texts.head? := by
      rw [htexts, List.head?_append_of_ne_nil]
      simpa [Run.texts] using hrun
    obtain ⟨run', htexts', hleads'⟩ := ih hne (hhead ▸ htypedef) hrest
    exact ⟨run', by rw [htexts', htexts]; simp, hleads.trans hleads'⟩

/-! ## The parameters of a prototype -/

def parameterTexts (void : Bool) (ps : List Parameter) : List String :=
  (parameterTokens void ps).map (·.text)

theorem Parameter.texts_tokens (p : Parameter) :
    p.tokens.map (·.text) = p.type.texts ++ List.replicate p.type.stars "*" ++
      p.name.text :: (p.default.toList.flatMap fun value => ["=", value.text]) := by
  unfold tokens WrittenType.tokens WrittenType.texts
  cases p.default <;> simp [defaultTokens, Token.text, Function.comp_def]

theorem isPart_tokens (p : Parameter) : ∀ t ∈ p.tokens, t.IsPart := by
  intro t ht
  unfold Parameter.tokens WrittenType.tokens at ht
  simp only [List.mem_append, List.mem_map, List.mem_replicate, List.mem_cons] at ht
  rcases ht with (⟨w, -, rfl⟩ | ⟨-, rfl⟩) | rfl | ht
  · exact trivial
  · exact (by decide : '*' ∈ parameterMarks)
  · exact trivial
  · cases hdefault : p.default with
    | none =>
      rw [hdefault] at ht
      cases ht
    | some value =>
      rw [hdefault] at ht
      simp only [defaultTokens, List.mem_cons, List.not_mem_nil, or_false] at ht
      rcases ht with rfl | rfl
      · exact (by decide : '=' ∈ parameterMarks)
      · exact trivial

theorem isPart_parameterTokens (void : Bool) (ps : List Parameter) :
    ∀ t ∈ parameterTokens void ps, t.IsPart := by
  cases ps with
  | nil =>
    intro t ht
    cases void with
    | false => cases ht
    | true =>
      obtain rfl := List.mem_singleton.mp ht
      exact trivial
  | cons p ps =>
    intro t ht
    rcases List.mem_append.mp ht with ht | ht
    · exact isPart_tokens p t ht
    · obtain ⟨q, -, ht⟩ := List.mem_flatMap.mp ht
      rcases List.mem_cons.mp ht with rfl | ht
      · exact (by decide : ',' ∈ parameterMarks)
      · exact isPart_tokens q t ht

theorem notMem_texts_type (t : WrittenType) : "=" ∉ t.texts ++ List.replicate t.stars "*" := by
  rw [← WrittenType.texts_toRun]
  exact t.notMem_texts_toRun (fun w => w.text_ne (by decide)) (by decide)

/-- The equals sign stands only before a default. -/
theorem notMem_texts_tokens {p : Parameter} (h : p.default = none) :
    "=" ∉ p.tokens.map (·.text) := by
  have hname : p.name.text ≠ "=" := p.name.text_ne (by decide)
  have htype := notMem_texts_type p.type
  rw [p.texts_tokens, h]
  simp only [List.mem_append, List.mem_cons, not_or] at htype ⊢
  exact ⟨htype, hname.symm, by simp⟩

theorem notMem_parameterTexts {ps : List Parameter} (h : ps.find? (·.default.isSome) = none)
    (void : Bool) : "=" ∉ parameterTexts void ps := by
  have hnone : ∀ p ∈ ps, p.default = none := by
    intro p hp
    simpa using List.find?_eq_none.mp h p hp
  cases ps with
  | nil => cases void <;> simp [parameterTexts, parameterTokens, Token.text, voidWord]
  | cons p ps =>
    unfold parameterTexts parameterTokens
    rw [List.map_append, List.mem_append, not_or]
    refine ⟨notMem_texts_tokens (hnone p (List.mem_cons_self ..)), fun hm => ?_⟩
    obtain ⟨t, ht, htext⟩ := List.mem_map.mp hm
    obtain ⟨q, hq, ht⟩ := List.mem_flatMap.mp ht
    rcases List.mem_cons.mp ht with rfl | ht
    · exact absurd htext (by decide)
    · exact notMem_texts_tokens (hnone q (List.mem_cons_of_mem _ hq))
        (List.mem_map.mpr ⟨t, ht, htext⟩)

/-- The first equals sign follows the name of the first parameter with a default. -/
theorem parameterTexts_valued {p q : Parameter} {ps : List Parameter}
    (h : (p :: ps).find? (·.default.isSome) = some q) (void : Bool) :
    ∃ before after, parameterTexts void (p :: ps) = before ++ q.name.text :: "=" :: after ∧
      "=" ∉ before ∧ before ≠ [] := by
  have hfirst : ∀ (p : Parameter) (ps : List Parameter) (value : PlainWord), p.default = some value →
      ∃ before after, parameterTexts void (p :: ps) = before ++ p.name.text :: "=" :: after ∧
        "=" ∉ before ∧ before ≠ [] := by
    intro p ps value hvalue
    refine ⟨p.type.texts ++ List.replicate p.type.stars "*",
      value.text :: (ps.flatMap fun q => .mark ',' :: q.tokens).map (·.text), ?_,
      notMem_texts_type p.type, ?_⟩
    · unfold parameterTexts parameterTokens
      rw [List.map_append, p.texts_tokens, hvalue]
      simp
    · simp [WrittenType.texts, p.type.words_ne_nil]
  induction ps generalizing p with
  | nil =>
    cases hdefault : p.default with
    | some value =>
      obtain rfl : p = q := by simpa [hdefault] using h
      exact hfirst p [] value hdefault
    | none => simp [hdefault] at h
  | cons p' ps ih =>
    cases hdefault : p.default with
    | some value =>
      obtain rfl : p = q := by simpa [hdefault] using h
      exact hfirst p (p' :: ps) value hdefault
    | none =>
      obtain ⟨before, after, htexts, hnot, -⟩ := ih (p := p') (by simpa [hdefault] using h)
      refine ⟨p.tokens.map (·.text) ++ "," :: before, after, ?_, ?_, by simp⟩
      · have hsplit : parameterTexts void (p :: p' :: ps) =
            p.tokens.map (·.text) ++ "," :: parameterTexts void (p' :: ps) := by
          simp [parameterTexts, parameterTokens, Token.text]
        rw [hsplit, htexts]
        simp
      · simp only [List.mem_append, List.mem_cons, not_or]
        exact ⟨notMem_texts_tokens hdefault, by decide, hnot⟩

/-! ## Reading a prototype that is left out -/

/-- The name of a function before its parenthesis drops what was read of a declaration that is left
out. -/
theorem word_leftOut (hroot : s.node.kind = .root) (t : WrittenType) (k : Storage) (word : String) :
    ({ s with context := { run := (t.after (some k)).toRun, comment, claim } } : OpenScope).word
        word '(' = { s with context := { comment, claim } } := by
  have hc : ({ run := (t.after (some k)).toRun, comment, claim } : Context).Collects :=
    ⟨rfl, rfl, rfl, rfl⟩
  have hrecord : s.node.kind.isRecord = false := by rw [hroot]; rfl
  have hequals : "=" ∉ (t.after (some k)).toRun.texts :=
    (t.after (some k)).notMem_texts_toRun (fun w => w.text_ne (by decide)) (by decide)
  have hhead : (t.after (some k)).toRun.texts.head? = some k.word.text :=
    (t.after (some k)).head?_texts_toRun.trans (t.head?_texts_after k)
  have htypedef : k.word.text ≠ "typedef" := by cases k <;> decide
  unfold OpenScope.word
  rw [if_pos (by exact rfl)]
  unfold OpenScope.declarationWord
  rw [if_neg (by simp [hrecord])]
  simp only [OpenScope.update, hc.startRun]
  rw [if_pos (by simp [hequals, hhead, htypedef])]
  unfold OpenScope.startFunction
  dsimp only
  rw [hroot, hhead, Option.any_some, if_pos (isLeftOut_storage k)]
  rfl

theorem leads_opening_leftOut (hroot : s.node.kind = .root) (t : WrittenType) (k : Storage)
    (w : PlainWord) :
    Leads s { run := (t.after (some k)).toRun, comment } (.opening w :: ts) (.unread [] comment)
      ts := by
  intro claim cs hcs
  cases hcs with
  | opening hgap hcs' =>
    rename_i gap cs'
    have hupdate : (State.reading s { run := (t.after (some k)).toRun, comment, claim }).update
        (·.word w.text '(') = State.reading s { comment, claim } :=
      congrArg (fun scope => ({ scope } : State)) (word_leftOut hroot t k w.text)
    have hparen : (State.reading s { comment, claim }).step '(' =
        State.reading s { Context.unread [] comment with claim } :=
      State.step_reading rfl (f := .openParen) rfl
    obtain ⟨claim', hgap'⟩ := run_gap_claim (s := s) (c := .unread [] comment) rfl claim hgap cs'
    refine ⟨claim', cs', hcs', ?_⟩
    rw [State.run_word rfl w (by decide : State.isWordPart 0 '(' = false), hupdate]
    change ((State.reading s _).step '(').run _ = _
    rw [hparen, hgap']

/-- A parenthesis that closes parameters without a header. -/
theorem leads_unread_close :
    Leads s (.unread run comment) (.mark ')' :: ts)
      { run := if run = [] then [] else run.push ")" false, comment } ts := by
  refine leads_mark rfl fun claim => ⟨claim, ?_⟩
  rw [State.step_reading rfl (f := .closeParen) rfl]
  refine congrArg (State.reading s) ?_
  cases run <;> simp [Context.closeParen, Context.unread, Context.inArguments, Context.pushIfStarted]

namespace Prototype

/-- The first word of the parameters does not make another kind of declaration of them. -/
def ParametersLead (p : Prototype) : Prop :=
  ∀ q ∈ p.parameters.head?,
    q.type.texts.head? ∉ [some "typedef", some "static", some "extern"]

instance (p : Prototype) : Decidable p.ParametersLead :=
  inferInstanceAs (Decidable (∀ q ∈ p.parameters.head?, _))

/-- The name of the variable that a prototype is taken for if it is left out: the first parameter with
a default, unless the declaration seems to be one of an operator. -/
def leftOver? (p : Prototype) : Option String :=
  if (parameterTexts false p.parameters).contains "operator" then none
  else (p.parameters.find? (·.default.isSome)).map (·.name.text)

def tokensAfter (p : Prototype) (storage : Option Storage) (void : Bool) : List Token :=
  (p.result.after storage).tokens ++ .opening p.name.toPlainWord ::
    parameterTokens void p.parameters ++ [.mark ')', .mark ';']

/-- The first token between the parentheses, if there is any, is the first word of a type. -/
theorem parameterTokens_head {p : Prototype} (hlead : p.ParametersLead) (void : Bool) :
    parameterTokens void p.parameters = [] ∨ ∃ w rest,
      parameterTokens void p.parameters = .word w :: rest ∧
        some w.text ∉ [some "typedef", some "static", some "extern"] := by
  unfold ParametersLead at hlead
  generalize p.parameters = ps at hlead ⊢
  cases ps with
  | nil =>
    cases void with
    | false => exact .inl rfl
    | true => exact .inr ⟨voidWord, [], rfl, by decide⟩
  | cons q ps =>
    obtain ⟨first, rest, hwords⟩ := List.exists_cons_of_ne_nil q.type.words_ne_nil
    refine .inr ⟨first.toPlainWord, rest.map (.word ·.toPlainWord) ++
      (List.replicate q.type.stars (.mark '*') ++ .word q.name.toPlainWord ::
        defaultTokens q.default) ++ ps.flatMap fun q => .mark ',' :: q.tokens, ?_, ?_⟩
    · simp [parameterTokens, Parameter.tokens, WrittenType.tokens, hwords]
    · simpa [WrittenType.texts, hwords] using hlead q rfl

theorem leads_unread_parameters (hroot : s.node.kind = .root) {p : Prototype}
    (hlead : p.ParametersLead) (void : Bool) :
    ∃ run : Run, run.texts = parameterTexts void p.parameters ∧
      Leads s (.unread [] comment) (parameterTokens void p.parameters ++ .mark ')' :: ts)
        (.unread run comment) (.mark ')' :: ts) := by
  have hparts := isPart_parameterTokens void p.parameters
  unfold parameterTexts
  rcases parameterTokens_head hlead void with hnone | ⟨w, rest, htokens, hw⟩
  · rw [hnone]
    exact ⟨[], rfl, .refl⟩
  · rw [htokens] at hparts ⊢
    simp only [List.mem_cons, Option.some.injEq, List.not_mem_nil, or_false, not_or] at hw
    have hrest : ∀ t ∈ rest, t.IsPart := fun t ht => hparts t (List.mem_cons_of_mem _ ht)
    have hfirst : Leads s (.unread [] comment) (.word w :: (rest ++ .mark ')' :: ts))
        (.unread [⟨w.text, false⟩] comment) (rest ++ .mark ')' :: ts) :=
      leads_unread_word hroot (show (Run.texts []).head? ≠ some "typedef" by decide) w
        (mem_parameterMarks hrest)
    have hne : ([⟨w.text, false⟩] : Run) ≠ [] := List.cons_ne_nil _ _
    obtain ⟨run, htexts, hleads⟩ : ∃ run : Run, run.texts = w.text :: rest.map (·.text) ∧
        Leads s (.unread [⟨w.text, false⟩] comment) (rest ++ .mark ')' :: ts) (.unread run comment)
          (.mark ')' :: ts) :=
      leads_unread hroot hne (by simpa [Run.texts] using hw.1) rest hrest
    exact ⟨run, htexts, hfirst.trans hleads⟩

/-- The parameters of a prototype that is left out are collected up to the semicolon. -/
theorem leads_leftOut (hroot : s.node.kind = .root) {p : Prototype} (hlead : p.ParametersLead)
    (k : Storage) (void : Bool) (comment : Option String) :
    ∃ run : Run, run.texts = (if parameterTexts void p.parameters = [] then []
        else parameterTexts void p.parameters ++ [")"]) ∧
      Leads s { comment } (p.tokensAfter (some k) void) { run, comment } [.mark ';'] := by
  obtain ⟨run, htexts, hparameters⟩ : ∃ run : Run, run.texts = parameterTexts void p.parameters ∧
      Leads s (.unread [] comment) (parameterTokens void p.parameters ++ [.mark ')', .mark ';'])
        (.unread run comment) [.mark ')', .mark ';'] := leads_unread_parameters hroot hlead void
  have htype : Leads s { comment }
      ((p.result.after (some k)).tokens ++ .opening p.name.toPlainWord ::
        (parameterTokens void p.parameters ++ [.mark ')', .mark ';']))
      { run := (p.result.after (some k)).toRun, comment } _ :=
    leads_type ⟨rfl, rfl, rfl, rfl⟩ hroot rfl _ fun m hm => by cases hm
  refine ⟨if run = [] then [] else run.push ")" false, ?_, ?_⟩
  · rw [← htexts]
    cases run <;> simp [Run.texts, Run.push]
  · rw [tokensAfter, List.append_assoc, List.cons_append]
    exact htype.trans ((leads_opening_leftOut hroot p.result k _).trans
      (hparameters.trans leads_unread_close))

end Prototype

/-! ## What the semicolon makes of it -/

/-- The name of a variable is the word before the equals sign. -/
theorem ofRun?_of_texts {before after : List String} {name : String}
    (h : run.texts = before ++ name :: "=" :: after) (hbefore : "=" ∉ before) (hname : name ≠ "=")
    (hparen : name.toList.head? ≠ some ')') :
    ∃ d, Declarator.ofRun? run = some d ∧ d.name = name := by
  obtain ⟨type, named, rfl, rfl, hnamed⟩ := List.map_eq_append_iff.mp h
  obtain ⟨f, valued, rfl, rfl, hvalued⟩ := List.map_eq_cons_iff.mp hnamed
  obtain ⟨g, value, rfl, hequals, -⟩ := List.map_eq_cons_iff.mp hvalued
  have hstart : f.startsWith ')' = false := by simpa [Fragment.startsWith] using hparen
  exact ⟨_, ofRun?_named hbefore f hname hstart (g :: value) (by simp [hequals]), rfl⟩

theorem texts_ne_paren {t : Token} (h : t.IsPart) : t.text ≠ "(" := by
  cases t with
  | word w => exact w.text_ne (by decide)
  | opening w => exact h.elim
  | mark m =>
    have hmark : m = '*' ∨ m = '=' ∨ m = ',' := by simpa [Token.IsPart, parameterMarks] using h
    rcases hmark with rfl | rfl | rfl <;> decide

namespace Prototype

/-- A semicolon sees the declaration of a variable in parameters by their default. -/
theorem declaresVariable_leftOut {p : Prototype} (hlead : p.ParametersLead) {void : Bool}
    (hrun : run.texts = if parameterTexts void p.parameters = [] then []
      else parameterTexts void p.parameters ++ [")"]) :
    run.texts.head? ≠ some "typedef" ∧
      OpenScope.declaresVariable .root { run } = p.leftOver?.isSome ∧
      ∀ name, p.leftOver? = some name → ∃ d, Declarator.ofRun? run = some d ∧ d.name = name := by
  have hhead : run.texts.head? ∉ [some "typedef", some "static", some "extern"] := by
    unfold parameterTexts at hrun
    rcases parameterTokens_head hlead void with hnone | ⟨w, rest, htokens, hw⟩
    · rw [hnone] at hrun
      rw [hrun]
      decide
    · rw [htokens] at hrun
      rw [hrun]
      exact hw
  have hparen : "(" ∉ run.texts := by
    rw [hrun]
    split
    · exact List.not_mem_nil
    · rw [List.mem_append, not_or]
      refine ⟨fun hm => ?_, by decide⟩
      obtain ⟨t, ht, htext⟩ := List.mem_map.mp hm
      exact texts_ne_paren (isPart_parameterTokens void p.parameters t ht) htext
  obtain ⟨htypedef, hleft⟩ := head_of_leads hhead
  refine ⟨htypedef, ?_⟩
  unfold leftOver?
  cases hfind : p.parameters.find? (·.default.isSome) with
  | none =>
    have hequals : "=" ∉ run.texts := by
      rw [hrun]
      split
      · exact List.not_mem_nil
      · simpa using notMem_parameterTexts hfind void
    rw [OpenScope.declaresVariable_of_notMem hequals hparen]
    simp
  | some q =>
    obtain ⟨before, after, htexts, hbefore, hne⟩ : ∃ before after,
        parameterTexts void p.parameters = before ++ q.name.text :: "=" :: after ∧
          "=" ∉ before ∧ before ≠ [] := by
      cases hps : p.parameters with
      | nil =>
        rw [hps] at hfind
        cases hfind
      | cons first ps => exact parameterTexts_valued (hps ▸ hfind) void
    have hall : run.texts = before ++ q.name.text :: "=" :: (after ++ [")"]) := by
      rw [hrun, htexts, if_neg (by simp)]
      simp
    have hoperator : run.texts.contains "operator" =
        (parameterTexts false p.parameters).contains "operator" := by
      have hvoid : parameterTexts false p.parameters = parameterTexts void p.parameters := by
        cases hps : p.parameters with
        | nil =>
          rw [hps] at hfind
          cases hfind
        | cons first ps => rfl
      rw [hall, hvoid, htexts, Bool.eq_iff_iff]
      simp
    have hdrop : (run.texts.drop 2).contains "=" = true := by
      obtain ⟨first, rest, rfl⟩ := List.exists_cons_of_ne_nil hne
      rw [hall]
      cases rest <;> simp
    have hdeclares : OpenScope.declaresVariable .root { run } =
        !(parameterTexts false p.parameters).contains "operator" := by
      unfold OpenScope.declaresVariable
      simp only [hdrop, hoperator, hleft]
      simp
    constructor
    · rw [hdeclares]
      cases (parameterTexts false p.parameters).contains "operator" <;> rfl
    · intro name hname
      split at hname
      · cases hname
      · obtain rfl : q.name.text = name := Option.some.inj hname
        exact ofRun?_of_texts hall hbefore (q.name.text_ne (by decide)) fun he =>
          q.name.notMem (by decide : isAsciiWordChar ')' = false) (List.mem_of_mem_head? he)

theorem run_leftOut (hroot : s.node.kind = .root) {p : Prototype} (hlead : p.ParametersLead)
    (k : Storage) {void : Bool} {cs : List Char} (hcs : Spells (p.tokensAfter (some k) void) cs)
    (comment : Option String) :
    ∃ (run : Run) (claim : Option (List Claim)) (gap : List Char), IsGap gap ∧
      run.texts.head? ≠ some "typedef" ∧
      OpenScope.declaresVariable .root { run } = p.leftOver?.isSome ∧
      (∀ name, p.leftOver? = some name → ∃ d, Declarator.ofRun? run = some d ∧ d.name = name) ∧
      (State.reading s { comment }).run (cs ++ ['\n']) =
        ((State.reading s { run, comment, claim }).step ';').run (gap ++ ['\n']) := by
  obtain ⟨run, htexts, hleads⟩ := leads_leftOut hroot hlead k void comment
  obtain ⟨htypedef, hdeclares, hname⟩ := declaresVariable_leftOut hlead htexts
  obtain ⟨claim, cs', hcs', hrun⟩ := hleads none cs hcs
  cases hcs' with
  | mark hgap hnil =>
    cases hnil
    rename_i gap
    refine ⟨run, claim, gap, hgap, htypedef, hdeclares, hname, ?_⟩
    rw [List.append_nil] at hrun
    rw [State.run_append]
    exact (congrArg (State.run · ['\n']) hrun).trans (State.run_append _ (';' :: gap) ['\n']).symm

/-- A prototype that is left out is passed over, where no parameter has a default. -/
theorem passes_leftOut (hroot : s.node.kind = .root) {p : Prototype} (hlead : p.ParametersLead)
    (k : Storage) {void : Bool} {cs : List Char} (hcs : Spells (p.tokensAfter (some k) void) cs)
    (hnone : p.leftOver? = none) (comment : Option String) :
    PassesOver s comment (cs ++ ['\n']) := by
  obtain ⟨run, claim, gap, hgap, htypedef, hdeclares, -, hrun⟩ :=
    run_leftOut hroot hlead k hcs comment
  rw [hnone] at hdeclares
  exact hrun.trans (by rw [step_semicolon_idle hroot htypedef hdeclares, run_lineEnd hgap])

/-- Where a parameter has a default, it is recorded as a variable, which the waiting comment
describes. -/
theorem records_leftOut (hroot : s.node.kind = .root) {p : Prototype} (hlead : p.ParametersLead)
    (k : Storage) {void : Bool} {cs : List Char} (hcs : Spells (p.tokensAfter (some k) void) cs)
    {name : String} (hsome : p.leftOver? = some name) (comment : Option String) :
    ∃ d : Declarator, d.name = name ∧ Records s comment (cs ++ ['\n']) (d.toVariable comment) := by
  obtain ⟨run, claim, gap, hgap, htypedef, hdeclares, hname, hrun⟩ :=
    run_leftOut hroot hlead k hcs comment
  obtain ⟨d, hd, hdname⟩ := hname name hsome
  rw [hsome] at hdeclares
  obtain ⟨s', hnode, claim', hstep⟩ := step_semicolon_variable hroot htypedef hdeclares hd
  exact ⟨d, hdname, s', hnode, hrun.trans (by rw [hstep, run_lineEnd hgap])⟩

end Prototype

end HeaderDocs.Scan
