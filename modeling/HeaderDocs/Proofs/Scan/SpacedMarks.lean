import HeaderDocs.Proofs.Scan.DeclaratorEnds
import HeaderDocs.Proofs.Scan.Invariants
import HeaderDocs.Proofs.Scan.Splitting
import HeaderDocs.Proofs.Scan.Variable

/-!
# White space before the mark that ends a word

A word is read together with the character that ends it, so that a semicolon, a comma or a closing
parenthesis right behind a word is read by other means than one behind a space. Both read the same,
unless the mark is what tells the declaration from one that declares something else:

* `OpenScope.decides`: where the mark behind the word can mean something else than behind a space;
* `OpenScope.take_word`: everywhere else the word and the mark leave the same scope behind;
* `Lags`: the words of a block that is not recorded do not matter, whatever they are cut into;
* `scan_insertSpace`: a space before such a mark does not change the tree.
-/
namespace HeaderDocs.Scan

open HeaderDocs.Text

/-! ## Arguments -/

namespace Context

variable {c : Context} {word : String}

theorem blocks_startRun (c : Context) :
    c.startRun.braces = c.braces ∧ c.startRun.parens = c.parens ∧
      c.startRun.enumeration = c.enumeration := by
  unfold startRun
  split <;> exact ⟨rfl, rfl, rfl⟩

theorem isEmpty_of_startRun (c : Context) (h : c.startRun.run.isEmpty = true) :
    c.run.isEmpty = true := by
  cases hrun : c.run.isEmpty with
  | true => rfl
  | false =>
    rw [startRun_of_run (by simpa using hrun), hrun] at h
    exact h

theorem inArguments_pushWord (c : Context) (word : String) :
    (c.pushWord word).inArguments = c.inArguments := by
  unfold pushWord startRun
  dsimp only
  split <;> rfl

theorem addArgument_interrupted (c : Context) :
    c.interrupted.addArgument = c.addArgument.interrupted := by
  unfold addArgument interrupted
  dsimp only
  split
  · rfl
  · split <;> rfl

/-- An argument that has been added leaves the argument list as open as it was, and nothing else to
add. -/
theorem endArgument_addArgument (h : c.inArguments = true) :
    c.addArgument.interrupted.inArguments = true ∧
      c.addArgument.interrupted.endArgument = c.addArgument.interrupted := by
  unfold inArguments at h
  unfold addArgument
  cases hheader : c.header with
  | none => rw [hheader] at h; cases h
  | some head =>
    rw [hheader] at h
    dsimp only
    split <;> exact ⟨by simpa [inArguments, interrupted, dropRun, hheader] using h, rfl⟩

/-- An argument list that holds nothing but `void` is empty. -/
theorem endArgument_void (hstart : c.startRun = c) (hrun : c.run = []) :
    (c.pushWord word).interrupted.endArgument = c.dropRun.interrupted.endArgument := by
  unfold endArgument pushWord
  simp [hstart, hrun, interrupted, dropRun, Run.pushWord, Run.push]

/-- The argument that ends in the word is added when its mark is read, if not with the word. -/
theorem endArgument_pushWord (h : c.inArguments = true) (hrun : c.startRun.run ≠ []) :
    (c.pushWord word).interrupted.endArgument =
      (c.pushWord word).addArgument.interrupted.endArgument := by
  rw [(endArgument_addArgument ((inArguments_pushWord c word).trans h)).2, ← addArgument_interrupted]
  refine if_pos ?_
  have hlength := List.length_pos_iff.mpr hrun
  simp only [pushWord, interrupted, Run.pushWord, Run.push, List.length_append, List.length_cons,
    List.length_nil]
  omega

end Context

/-! ## Marks -/

namespace OpenScope

variable {s : OpenScope} {word : String} {mark : Char}

/-- Reads a semicolon, a comma or a closing parenthesis. -/
def take (mark : Char) (s : OpenScope) : OpenScope :=
  match mark with
  | ';' => s.semicolon
  | ',' => s.update .comma
  | _ => s.update .closeParen

/-- Whether a semicolon, comma or closing parenthesis right behind the word says what is declared,
where it would not behind a space: it makes one word an argument, a word between nested parentheses
longer, or the word before it the name that is declared. -/
def decides (word : String) (mark : Char) (s : OpenScope) : Bool :=
  let c := s.context.startRun
  let first := c.run.texts.headD ""
  if mark == ',' && 1 < s.context.parens then s.context.braces == 0 || s.context.enumeration.isSome
  else if s.context.braces != 0 then false
  else if s.context.run.isEmpty && s.node.kind.isRecord && isAccess (withoutColons word) then false
  else if c.inArguments && mark != ';' then c.run.isEmpty && word != "void"
  else if c.run.isEmpty || c.header.isSome || mark == ')' then false
  else if c.typeAlias.isSome || c.record.isSome then true
  else if first == "typedef" then mark == ',' || aliasIndex (c.run.pushWord word) != c.run.length
  else if c.parens != 0 then false
  else mark == ',' ||
    !(isLeftOut s.node.kind first || declaresVariable s.node.kind (c.pushWord word))

/-- An argument list goes on, or ends, with the arguments that the context has now. -/
theorem take_arguments (hmark : mark = ',' ∨ mark = ')') {c d : Context} (hc : c.inArguments = true)
    (hd : d.inArguments = true) (hbraces : c.braces = 0 ∧ d.braces = 0)
    (h : c.endArgument = d.endArgument) :
    ({ s with context := c } : OpenScope).take mark = { s with context := d }.take mark := by
  rcases hmark with rfl | rfl
  · simp [take, update, Context.comma, Context.inEnumeration, hbraces, hc, hd, h]
  · simp only [take, update, Context.closeParen, hc, hd, h, if_true]
    rfl

/-! ### Semicolons -/

/-- What a semicolon leaves of the run does not matter: the declaration is over. -/
theorem semicolon_congr {s t : OpenScope}
    (h : s.endHeader.endRun.update .dropRun = t.endHeader.endRun.update .dropRun) :
    s.semicolon = t.semicolon :=
  congrArg (·.update fun c =>
    let c := { c with record := none, base := [] }
    if c.braces == 0 then { c with typeAlias := none, enumeration := none } else c) h

/-- Recording a node leaves the declaration that is being read as it was. -/
theorem context_commit_idle (s : OpenScope) (node : Node) :
    (s.commit node).1.context.run = s.context.run ∧
      (s.commit node).1.context.joinable = s.context.joinable :=
  commitTo_context (P := fun c => c.run = s.context.run ∧ c.joinable = s.context.joinable)
    ⟨rfl, rfl⟩ (fun _ _ => id) (fun _ _ _ => id) node

/-- Nothing is being read, so that a semicolon has nothing to record. -/
structure Rests (s : OpenScope) : Prop where
  header : s.context.header = none
  run : s.context.run = []
  joinable : s.context.joinable = false

theorem Rests.update_interrupted (h : s.Rests) : s.update .interrupted = s := by
  unfold update Context.interrupted
  rw [← h.joinable]

theorem Rests.endRun (h : s.Rests) : s.endHeader.endRun = s := by
  rw [endHeader_of_none h.header, endRun_of_nil h.run]

/-- Recording a node starts nothing. -/
theorem Rests.commit (h : s.Rests) (node : Node) : (s.commit node).1.Rests :=
  ⟨header_commit h.header node, (context_commit_idle s node).1.trans h.run,
    (context_commit_idle s node).2.trans h.joinable⟩

theorem Rests.withClaim (h : s.Rests) (claim : Option (List Claim)) :
    (s.update ({ · with claim })).Rests :=
  ⟨h.header, h.run, h.joinable⟩

section
variable (hheader : s.context.header = none)
include hheader

theorem rests_declareAlias (name : String) (type : Run) : (s.declareAlias name type).Rests := by
  have h : (s.update fun c => { c.takeComment with run := [] }).Rests := ⟨hheader, rfl, rfl⟩
  exact (h.commit _).withClaim _

theorem rests_declareVariable {d : Declarator} (hd : Declarator.ofRun? s.context.run = some d)
    (terminator : Char) : (s.declareVariable terminator).Rests := by
  have h : ∀ base : Run,
      (s.update fun c => { c.dropRun.takeComment with base }).Rests := fun _ => ⟨hheader, rfl, rfl⟩
  unfold declareVariable
  rw [hd]
  exact ((h _).commit _).withClaim _

end

/-- A name for a type that stands last. -/
theorem endRun_alias {run : Run} {name : Fragment} (hrun : s.context.run = run ++ [name])
    (htypedef : s.context.run.texts.head? = some "typedef")
    (hlast : aliasIndex s.context.run = run.length) (hne : run ≠ []) :
    s.endRun = s.declareAlias name.text (run.drop 1) := by
  have hlength : (run.length == 0) = false := by simpa using hne
  unfold endRun finishAlias
  rw [if_pos (by simpa using htypedef)]
  simp only [hlast, hlength]
  rw [hrun, List.getElem?_concat_length]
  simp [List.eraseIdx_append_of_length_le]

/-- The name for a type takes the place of the run and the comment. -/
theorem declareAlias_update {f : Context → Context}
    (h : ({ (f s.context).takeComment with run := [] } : Context) =
      { s.context.takeComment with run := [] })
    (hcomment : (f s.context).comment = s.context.comment) (name : String) (type : Run) :
    (s.update f).declareAlias name type = s.declareAlias name type := by
  unfold declareAlias
  simp only [update, h, hcomment]

section
variable (hrun : s.context.run ≠ [])
include hrun

theorem update_pushWord :
    s.update (·.pushWord word) = s.update fun c => { c with run := c.run.pushWord word } := by
  simp only [update, Context.pushWord, Context.startRun_of_run hrun]

variable (hheader : s.context.header = none)
include hheader

/-- A name for a type stands last, and is found there again. -/
theorem semicolon_alias (htypedef : s.context.run.texts.head? = some "typedef")
    (hlast : aliasIndex (s.context.run.pushWord word) = s.context.run.length) :
    ((s.update (·.pushWord word)).update .interrupted).semicolon =
      ((s.declareAlias word (s.context.run.drop 1)).update .interrupted).semicolon := by
  have hrests := rests_declareAlias hheader word (s.context.run.drop 1)
  rw [hrests.update_interrupted, update_pushWord hrun]
  refine semicolon_congr (congrArg _ ?_)
  rw [hrests.endRun, endHeader_of_none (by exact hheader)]
  rw [endRun_alias (show _ = s.context.run ++ [_] from rfl) ((head?_pushWord hrun word).trans htypedef)
    hlast hrun]
  exact declareAlias_update (s := s) (f := fun c => Context.interrupted { c with run := c.run.pushWord word })
    rfl rfl _ _

/-- A variable with an initial value, or a pointer to a function, is known by its whole run. -/
theorem semicolon_variable (htypedef : s.context.run.texts.head? ≠ some "typedef")
    (hdeclares : declaresVariable s.node.kind (s.context.pushWord word) = true) :
    ((s.update (·.pushWord word)).update .interrupted).semicolon =
      (((s.update (·.pushWord word)).declareVariable ';').update .interrupted).semicolon := by
  have hpushed : s.update (·.pushWord word) = _ := update_pushWord hrun
  have hhead := (head?_pushWord hrun word).symm ▸ htypedef
  generalize ht : s.update (·.pushWord word) = t at hpushed ⊢
  have hrun' : t.context.run = s.context.run.pushWord word := by rw [hpushed]; rfl
  have hheader' : t.context.header = none := by rw [hpushed]; exact hheader
  have hdeclares' : declaresVariable t.node.kind t.context = true := by rw [← ht]; exact hdeclares
  have hspaced : (t.update .interrupted).endHeader.endRun =
      (t.update .interrupted).declareVariable ';' := by
    rw [endHeader_of_none (by exact hheader')]
    unfold endRun
    rw [if_neg (by simpa [update, Context.interrupted, hrun'] using hhead)]
    exact if_pos hdeclares'
  refine semicolon_congr (congrArg _ ?_)
  rw [hspaced]
  cases hd : Declarator.ofRun? t.context.run with
  | none =>
    have hnone : ∀ u : OpenScope, u.context.run = t.context.run →
        u.declareVariable ';' = u.update .dropRun := fun u hu => by
      unfold declareVariable
      rw [hu, hd]
    rw [hnone t rfl, hnone (t.update .interrupted) rfl, endHeader_of_none (by exact hheader'),
      endRun_of_nil rfl]
    rfl
  | some d =>
    have hrests := rests_declareVariable hheader' hd ';'
    rw [hrests.update_interrupted, hrests.endRun]
    unfold declareVariable
    rw [hd, show (t.update .interrupted).context.run = t.context.run from rfl, hd]
    rfl

theorem semicolon_leftOut (htypedef : s.context.run.texts.head? ≠ some "typedef")
    (hleft : s.context.run.texts.head?.any (isLeftOut s.node.kind) = true) :
    ((s.update (·.pushWord word)).update .interrupted).semicolon =
      ((s.update .dropRun).update .interrupted).semicolon := by
  rw [update_pushWord hrun]
  have hspaced : ((s.update fun c => { c with run := c.run.pushWord word }).update
      .interrupted).endRun = (s.update fun c => { c with run := c.run.pushWord word }).update
        .interrupted := by
    unfold endRun declaresVariable
    simp only [update, Context.interrupted, head?_pushWord hrun word, hleft, Bool.not_true,
      Bool.and_false, Bool.false_eq_true, if_false, beq_iff_eq, htypedef]
  have hdirect : ((s.update .dropRun).update .interrupted).endRun =
      (s.update .dropRun).update .interrupted := endRun_of_nil rfl
  refine semicolon_congr ?_
  rw [endHeader_of_none (by exact hheader), hspaced, endHeader_of_none (by exact hheader), hdirect]
  rfl

end

/-! ### Words -/

/-- A word that stands before a space, unless it sets the access of members. -/
theorem declarationWord_space
    (haccess : (s.context.run.isEmpty && s.node.kind.isRecord && isAccess (withoutColons word)) = false) :
    s.declarationWord word ' ' = (s.update .startRun).update (·.pushWord word) := by
  unfold declarationWord
  rw [haccess]
  simp

/-- A word that stands before a mark, unless it sets the access of members. -/
theorem declarationWord_mark (hmark : mark ∈ [';', ',', ')'])
    (haccess : (s.context.run.isEmpty && s.node.kind.isRecord && isAccess (withoutColons word)) = false) :
    s.declarationWord word mark =
      let s := s.update .startRun
      let c := s.context
      if c.inArguments && mark != ';' then
        if word == "void" && c.run.isEmpty then s.update .dropRun
        else s.update fun c => (c.pushWord word).addArgument
      else if !c.run.isEmpty && c.header.isNone && mark != ')' then s.endDeclarator word mark
      else s.update (·.pushWord word) := by
  unfold declarationWord
  rw [haccess]
  simp only [List.mem_cons, List.not_mem_nil, or_false] at hmark
  rcases hmark with rfl | rfl | rfl <;> simp

theorem take_argument (hmark : mark = ',' ∨ mark = ')') (hbraces : s.context.braces = 0)
    (hstart : s.context.startRun = s.context) (hin : s.context.inArguments = true)
    (hword : s.context.run ≠ [] ∨ word = "void") :
    ((s.update (·.pushWord word)).update .interrupted).take mark =
      ((if word == "void" && s.context.run.isEmpty then s.update .dropRun
        else s.update fun c => (c.pushWord word).addArgument).update .interrupted).take mark := by
  have hin' := (Context.inArguments_pushWord s.context word).trans hin
  have hpushed : (s.context.pushWord word).braces = 0 :=
    (congrArg (·.1.1) (s.context.skeleton_pushWord word)).trans hbraces
  have hadded : (s.context.pushWord word).addArgument.braces = 0 :=
    (congrArg (·.1.1) (s.context.pushWord word).skeleton_addArgument).trans hpushed
  by_cases hrun : s.context.run = []
  · obtain rfl := hword.resolve_left (absurd hrun)
    rw [if_pos (by simp [hrun])]
    exact take_arguments (s := s) hmark hin' hin ⟨hpushed, hbraces⟩
      (Context.endArgument_void hstart hrun)
  · rw [if_neg (by simp [hrun])]
    exact take_arguments (s := s) hmark hin' (Context.endArgument_addArgument hin').1
      ⟨hpushed, hadded⟩
      (Context.endArgument_pushWord hin (hstart.symm ▸ hrun))

theorem take_declarator (hmark : mark = ';' ∨ mark = ',') (hbraces : s.context.braces = 0)
    (hrun : s.context.run ≠ []) (hheader : s.context.header = none)
    (hcomma : mark = ',' → s.context.parens ≤ 1) (hd : s.decides word mark = false) :
    ((s.update (·.pushWord word)).update .interrupted).take mark =
      ((s.endDeclarator word mark).update .interrupted).take mark := by
  obtain ⟨first, hfirst⟩ : ∃ first, s.context.run.texts.head? = some first := by
    obtain ⟨f, fs, hf⟩ := List.exists_cons_of_ne_nil hrun
    exact ⟨f.text, by rw [hf]; rfl⟩
  have hstart := Context.startRun_of_run hrun
  have hempty : s.context.run.isEmpty = false := by simpa using hrun
  have hin : s.context.inArguments = false := by
    unfold Context.inArguments
    rw [hheader]
  unfold endDeclarator
  simp only [List.headD_eq_head?_getD, hfirst, Option.getD_some, beq_iff_eq]
  rcases hmark with rfl | rfl
  · -- nothing has been defined in the declaration, and the name is found in the run as well
    obtain ⟨⟨halias, hrecord⟩, hname⟩ : (s.context.typeAlias = none ∧ s.context.record = none) ∧
        if first = "typedef" then aliasIndex (s.context.run.pushWord word) = s.context.run.length
        else s.context.parens = 0 → isLeftOut s.node.kind first = false →
          declaresVariable s.node.kind (s.context.pushWord word) = true := by
      simpa [decides, hstart, hbraces, hempty, hin, hheader, hfirst] using hd
    rw [if_neg (by simp [halias, hrecord])]
    by_cases htypedef : first = "typedef"
    · rw [if_pos htypedef] at hname ⊢
      exact semicolon_alias hrun hheader (hfirst.trans (congrArg some htypedef)) hname
    · have hhead : s.context.run.texts.head? ≠ some "typedef" := by simpa [hfirst] using htypedef
      rw [if_neg htypedef] at hname ⊢
      by_cases hparens : s.context.parens = 0
      · rw [if_pos hparens]
        cases hleft : isLeftOut s.node.kind first with
        | true => exact semicolon_leftOut hrun hheader hhead (by rw [hfirst]; exact hleft)
        | false => exact semicolon_variable hrun hheader hhead (hname hparens hleft)
      · rw [if_neg hparens]
  · -- the name of a variable ends at a comma between parentheses only as the rest of the run
    obtain ⟨⟨halias, hrecord⟩, htypedef, hparens⟩ :
        (s.context.typeAlias = none ∧ s.context.record = none) ∧
          first ≠ "typedef" ∧ s.context.parens ≠ 0 := by
      simpa [decides, hstart, hbraces, hempty, hin, hheader, hfirst, hcomma rfl] using hd
    rw [if_neg (by simp [halias, hrecord]), if_neg htypedef, if_neg hparens]

/-- A word of a declaration whose run has started, or has no shared words to start with. -/
theorem take_started (hmark : mark ∈ [';', ',', ')']) (hbraces : s.context.braces = 0)
    (hstart : s.context.startRun = s.context)
    (haccess : (s.context.run.isEmpty && s.node.kind.isRecord && isAccess (withoutColons word)) = false)
    (hcomma : mark = ',' → s.context.parens ≤ 1) (hd : s.decides word mark = false) :
    ((s.update (·.pushWord word)).update .interrupted).take mark =
      ((if s.context.inArguments && mark != ';' then
          if word == "void" && s.context.run.isEmpty then s.update .dropRun
          else s.update fun c => (c.pushWord word).addArgument
        else if !s.context.run.isEmpty && s.context.header.isNone && mark != ')' then
          s.endDeclarator word mark
        else s.update (·.pushWord word)).update .interrupted).take mark := by
  by_cases hin : (s.context.inArguments && mark != ';') = true
  · rw [if_pos hin]
    simp only [Bool.and_eq_true, bne_iff_ne] at hin
    have hword : s.context.run ≠ [] ∨ word = "void" := by
      have hempty : s.context.run.isEmpty = true → word = "void" := by
        have hparens : ¬(mark = ',' ∧ 1 < s.context.parens) := fun h => absurd h.2 (by
          have := hcomma h.1
          omega)
        unfold decides at hd
        simpa [hstart, hparens, hbraces, haccess, hin] using hd
      exact (Classical.em (s.context.run = [])).symm.imp_right fun h => hempty (by simp [h])
    exact take_argument (by simpa [hin.2] using hmark) hbraces hstart hin.1 hword
  · rw [if_neg hin]
    split
    · rename_i hends
      simp only [Bool.and_eq_true, Bool.not_eq_true', List.isEmpty_eq_false_iff,
        Option.isNone_iff_eq_none, bne_iff_ne] at hends
      exact take_declarator (by simpa [hends.2] using hmark) hbraces hends.1.1 hends.1.2 hcomma hd
    · rfl

/-- Where the mark decides nothing, the word and the mark leave the same behind as with a space
between them. -/
theorem take_word (hmark : mark ∈ [';', ',', ')']) (hd : s.decides word mark = false)
    (hcomma : mark = ',' → s.context.parens ≤ 1) :
    ((s.word word ' ').update .interrupted).take mark =
      ((s.word word mark).update .interrupted).take mark := by
  unfold OpenScope.word
  dsimp only
  cases hbraces : s.context.braces == 0 with
  | false => rfl
  | true =>
    rw [if_pos rfl, if_pos rfl]
    cases haccess : s.context.run.isEmpty && s.node.kind.isRecord && isAccess (withoutColons word) with
    | true =>
      unfold declarationWord
      rw [haccess]
      rfl
    | false =>
      rw [declarationWord_space haccess, declarationWord_mark hmark haccess]
      have hstart := s.context.startRun_startRun
      have haccess' : ((s.context.startRun).run.isEmpty && s.node.kind.isRecord &&
          isAccess (withoutColons word)) = false := by
        cases hrun : s.context.startRun.run.isEmpty with
        | false => rfl
        | true => rwa [s.context.isEmpty_of_startRun hrun] at haccess
      obtain ⟨hbraces', hparens', henumeration'⟩ := s.context.blocks_startRun
      refine take_started (s := s.update .startRun) hmark ?_ hstart haccess' ?_ ?_
      · exact hbraces'.trans (eq_of_beq hbraces)
      · exact fun he => hparens'.symm ▸ hcomma he
      · rw [← hd]
        unfold decides
        simp only [update, hstart, haccess, haccess', hbraces', hparens', henumeration']

end OpenScope

/-! ## Words of blocks -/

namespace State

variable {s t : State} {c : Char}

/-- A word is read where no line comment can go on. -/
def InterruptsWords (s : State) : Prop :=
  ∀ text, s.mode = .word text → s.scope.context.joinable = false

theorem interruptsWords_plain (h : s.mode = .plain) : s.InterruptsWords := by
  intro text hword
  rw [h] at hword
  cases hword

theorem interruptsWords_mark (h : s.mode = .plain) (hjoin : s.scope.context.joinable = false)
    (c : Char) : (s.mark c).InterruptsWords := by
  refine mark_cases c ?begins ?openBrace ?closeBrace ?openParen ?closeParen ?semicolon ?comma
    ?equals ?sign ?ampersand ?colon ?other
  case begins =>
    intro mode hmode
    cases hmode with
    | directive | literal => exact nofun
    | word => exact fun _ _ => hjoin
  case openBrace => exact fun _ => interruptsWords_plain ((mode_openBrace s).trans h)
  case closeBrace => exact fun _ => interruptsWords_plain ((mode_closeBrace s).trans h)
  case other => exact fun _ _ => interruptsWords_plain h
  all_goals exact fun _ => interruptsWords_plain h

theorem interruptsWords_afterPlain (h : s.mode = .plain) (c : Char) :
    (s.plain c).InterruptsWords := by
  refine plain_cases c ?newline ?space ?slash ?mark
  case newline | space => exact fun _ => interruptsWords_plain h
  case slash => exact fun _ => nofun
  case mark => exact fun _ _ => interruptsWords_mark (s := s.update _) h rfl c

theorem interruptsWords_step (h : s.InterruptsWords) (c : Char) : (s.step c).InterruptsWords := by
  obtain ⟨a, ha, hstep⟩ := s.step_acts c
  rw [hstep]
  cases a with
  | turn mode =>
    cases ha with
    | part hmode => exact fun _ _ => h _ hmode
    | outside _ hnext => exact fun _ hword => absurd (congrArg Mode.layer hword) hnext.layer_ne
  | code =>
    cases ha with | code hmode
    exact interruptsWords_afterPlain hmode c
  | slash | word text => exact interruptsWords_afterPlain rfl c
  | blockComment text | lineComment text | directive | literal text => exact nofun

theorem interruptsWords_run (tree : Node) (source : List Char) :
    ((start tree).run source).InterruptsWords := by
  have hstart : (start tree).InterruptsWords := interruptsWords_plain rfl
  exact run_keeps (P := InterruptsWords) (fun _ c h => interruptsWords_step h c) hstart source

/-- The state `s` still reads a word of a block that is not recorded, where `t` has read the pieces
that commas cut it into. -/
structure Lags (s t : State) : Prop where
  word : ∃ text, s.mode = .word text
  mode : t.mode = .plain ∨ ∃ text, t.mode = .word text
  braces : s.scope.context.braces ≠ 0
  enumeration : s.scope.context.enumeration = none
  joinable : s.scope.context.joinable = false
  scope : t.scope = s.scope.update .dropRun
  enclosing : t.enclosing = s.enclosing

theorem step_plain (h : s.mode = .plain) (c : Char) : s.step c = s.plain c := by
  rw [State.step, h]

theorem step_blockWord {text : List Char} (hword : s.mode = .word text)
    (hbraces : s.scope.context.braces ≠ 0) (henumeration : s.scope.context.enumeration = none)
    (hc : isWordPart s.scope.context.parens c = false) :
    s.step c = ((s.enter .plain).update (·.update .dropRun)).plain c := by
  have hforgotten : s.scope.word (String.ofList text.reverse) c = s.scope.update .dropRun := by
    unfold OpenScope.word
    simp [hbraces, henumeration]
  rw [State.step, hword]
  dsimp only
  rw [if_neg (by simp [hc])]
  exact congrArg (fun scope => State.plain c { s with mode := .plain, scope }) hforgotten

/-- A character that a word goes on with does nothing where no run has started. -/
theorem plain_wordPart (hmode : t.mode = .plain) (hjoin : t.scope.context.joinable = false)
    (hrun : t.scope.context.run = []) (henumeration : t.scope.context.enumeration = none)
    (hc : isWordPart t.scope.context.parens c = true) :
    t.plain c = t ∨ t.plain c = t.enter (.word [c]) := by
  have hself : t.update (·.update .interrupted) = t := by
    unfold update OpenScope.update Context.interrupted
    rw [← hjoin]
  have hpushed : ∀ text spaced, t.scope.context.pushIfStarted text spaced = t.scope.context :=
    fun text spaced => if_pos (by rw [hrun]; rfl)
  have hcontext : ∀ f : Context → Context, f t.scope.context = t.scope.context →
      t.update (·.update f) = t := fun f hf =>
    congrArg (fun context => { t with scope := { t.scope with context } }) hf
  simp only [isWordPart, Bool.or_eq_true, Bool.and_eq_true, beq_iff_eq, decide_eq_true_eq] at hc
  rcases hc with (((hstart | rfl) | rfl) | rfl) | ⟨rfl, hparens⟩
  · right
    have hstep := step_wordStart_inContext (t := t) hjoin hstart
    rwa [show t.inContext t.scope.context = t from enter_self hmode, step_plain hmode] at hstep
  · exact .inl hself
  · exact .inl hself
  · left
    change (t.update (·.update .interrupted)).update (·.update (·.pushIfStarted ":" true)) = t
    rw [hself]
    exact hcontext _ (hpushed _ _)
  · left
    change (t.update (·.update .interrupted)).update (·.update .comma) = t
    rw [hself]
    refine hcontext _ ?_
    have hin : t.scope.context.inArguments = false := by
      unfold Context.inArguments
      split
      · simp [show t.scope.context.parens ≠ 1 by omega]
      · rfl
    simp [Context.comma, Context.inEnumeration, henumeration, hin, hpushed]

theorem Lags.step (h : s.Lags t) (c : Char) : s.step c = t.step c ∨ (s.step c).Lags (t.step c) := by
  obtain ⟨text, hword⟩ := h.word
  have hbraces : t.scope.context.braces ≠ 0 := by rw [h.scope]; exact h.braces
  have henumeration : t.scope.context.enumeration = none := by rw [h.scope]; exact h.enumeration
  have hparens : t.scope.context.parens = s.scope.context.parens := by rw [h.scope]; rfl
  cases hc : isWordPart s.scope.context.parens c with
  | true =>
    -- the one word goes on, and the other one too, or a new one begins
    have hs : s.step c = s.enter (.word (c :: text)) := by
      rw [State.step, hword]
      exact if_pos hc
    have ht : ∃ mode, (mode = .plain ∨ ∃ text, mode = Mode.word text) ∧ t.step c = t.enter mode := by
      rcases h.mode with hplain | ⟨text', hword'⟩
      · rw [step_plain hplain]
        rcases plain_wordPart hplain (by rw [h.scope]; exact h.joinable) (by rw [h.scope]; rfl)
          henumeration (hparens.symm ▸ hc) with ht | ht
        · exact ⟨.plain, .inl rfl, ht.trans (enter_self hplain).symm⟩
        · exact ⟨_, .inr ⟨_, rfl⟩, ht⟩
      · rw [State.step, hword']
        exact ⟨_, .inr ⟨_, rfl⟩, if_pos (hparens.symm ▸ hc)⟩
    obtain ⟨mode, hmode, ht⟩ := ht
    rw [hs, ht]
    exact .inr ⟨⟨_, rfl⟩, hmode, h.braces, h.enumeration, h.joinable, h.scope, h.enclosing⟩
  | false =>
    -- both words end here, and are forgotten
    have hsame : t.enter .plain = (s.enter .plain).update (·.update .dropRun) := by
      unfold enter
      rw [h.scope, h.enclosing]
      rfl
    left
    rw [step_blockWord hword h.braces h.enumeration hc, ← hsame]
    rcases h.mode with hplain | ⟨text', hword'⟩
    · rw [step_plain hplain, enter_self hplain]
    · rw [step_blockWord hword' hbraces henumeration (hparens.symm ▸ hc), hsame]
      rfl

theorem Lags.run (h : s.Lags t) (cs : List Char) : s.run cs = t.run cs ∨ (s.run cs).Lags (t.run cs) := by
  induction cs generalizing s t with
  | nil => exact .inr h
  | cons c cs ih =>
    rcases h.step c with he | hl
    · exact .inl (congrArg (·.run cs) he)
    · exact ih hl

/-- The word at the end of a source is not recorded. -/
theorem Lags.result (h : s.Lags t) : s.result.node = t.result.node := by
  unfold State.result
  rw [h.scope, h.enclosing]
  cases s.enclosing <;> rfl

/-! ## A space before a mark -/

theorem step_wordMark {mark : Char} (hmark : mark ∈ [';', ',', ')']) {text : List Char}
    (hword : s.mode = .word text) (hc : isWordPart s.scope.context.parens mark = false) :
    s.step mark = { s with
      mode := .plain
      scope := ((s.scope.word (String.ofList text.reverse) mark).update .interrupted).take mark } := by
  rw [State.step, hword]
  dsimp only
  rw [if_neg (by simp [hc])]
  simp only [List.mem_cons, List.not_mem_nil, or_false] at hmark
  rcases hmark with rfl | rfl | rfl <;> rfl

theorem run_spacedMark {mark : Char} (hmark : mark ∈ [';', ',', ')']) {text : List Char}
    (hword : s.mode = .word text) :
    (s.step ' ').step mark = { s with
      mode := .plain
      scope := ((s.scope.word (String.ofList text.reverse) ' ').update .interrupted).take mark } := by
  have hspace : s.step ' ' = (s.enter .plain).update (·.word (String.ofList text.reverse) ' ') := by
    rw [State.step, hword]
    dsimp only
    rw [if_neg (by simp [isWordPart_of_isSpace (show isSpace ' ' = true by decide)])]
    rfl
  rw [hspace]
  simp only [List.mem_cons, List.not_mem_nil, or_false] at hmark
  rcases hmark with rfl | rfl | rfl <;> rfl

/-- Where the mark decides nothing, it is read as behind a space, or makes the word of a block longer
that is not recorded. -/
theorem run_insertSpace {mark : Char} (hmark : mark ∈ [';', ',', ')']) {text : List Char}
    (hword : s.mode = .word text) (hinterrupts : s.InterruptsWords)
    (hd : s.scope.decides (String.ofList text.reverse) mark = false) (rest : List Char) :
    s.run (mark :: rest) = s.run (' ' :: mark :: rest) ∨
      (s.run (mark :: rest)).Lags (s.run (' ' :: mark :: rest)) := by
  by_cases hcomma : mark = ',' ∧ 1 < s.scope.context.parens
  · obtain ⟨rfl, hparens⟩ := hcomma
    obtain ⟨hbraces, henumeration⟩ :
        s.scope.context.braces ≠ 0 ∧ s.scope.context.enumeration = none := by
      simpa [OpenScope.decides, hparens] using hd
    have hspace := step_blockWord (c := ' ') hword hbraces henumeration
      (isWordPart_of_isSpace (by decide) _)
    have hlags : s.Lags (s.step ' ') := by
      rw [hspace]
      exact ⟨⟨text, hword⟩, .inl rfl, hbraces, henumeration, hinterrupts text hword, rfl, rfl⟩
    exact hlags.run (',' :: rest)
  · left
    have hc : isWordPart s.scope.context.parens mark = false := by
      have hparts : isWordStart mark = false ∧ mark ≠ '[' ∧ mark ≠ ']' ∧ mark ≠ ':' := by
        simp only [List.mem_cons, List.not_mem_nil, or_false] at hmark
        obtain rfl | rfl | rfl := hmark <;> decide
      simpa [isWordPart, hparts] using hcomma
    have hsame : s.step mark = (s.step ' ').step mark := by
      rw [step_wordMark hmark hword hc, run_spacedMark hmark hword,
        OpenScope.take_word hmark hd fun he => by
          have := not_and.mp hcomma he
          omega]
    exact congrArg (·.run rest) hsame

end State

/-- White space before a semicolon, a comma or a closing parenthesis behind a word is insignificant,
unless the mark decides what is declared. -/
theorem scan_insertSpace (tree : Node) (before after : String) {mark : Char}
    (hmark : mark ∈ [';', ',', ')']) {text : List Char}
    (hword : ((State.start tree).run before.toList).mode = .word text)
    (hd : ((State.start tree).run before.toList).scope.decides (String.ofList text.reverse) mark = false) :
    scan (before ++ " " ++ String.singleton mark ++ after) tree =
      scan (before ++ String.singleton mark ++ after) tree := by
  have hrun := State.run_insertSpace hmark hword (State.interruptsWords_run tree _) hd after.toList
  have htext : ∀ cs, ((State.start tree).run before.toList).run cs =
      (State.start tree).run (before.toList ++ cs) := fun cs => (State.run_append _ _ _).symm
  simp only [htext] at hrun
  unfold scan scanWithEvents
  simp only [String.toList_append, String.toList_singleton, List.append_assoc]
  rcases hrun with he | hlags
  · exact congrArg (fun s : State => s.result.node) he.symm
  · exact hlags.result.symm

/-- A comma in the parentheses of a function body, where it is read as part of a word. -/
theorem scan_insertSpace_body :
    let before := "int f(int a) \x7b g((a"
    ((State.start .empty).run before.toList).mode = .word ['a'] ∧
      ((State.start .empty).run before.toList).scope.decides "a" ',' = false ∧
      scan (before ++ " " ++ String.singleton ',' ++ "b)); \x7d int y;") .empty =
        scan (before ++ String.singleton ',' ++ "b)); \x7d int y;") .empty := by
  have hword : ((State.start .empty).run "int f(int a) \x7b g((a".toList).mode = .word ['a'] := by
    decide +kernel
  have hd : ((State.start .empty).run "int f(int a) \x7b g((a".toList).scope.decides "a" ',' = false := by
    decide +kernel
  exact ⟨hword, hd, scan_insertSpace .empty _ _ (by decide) hword hd⟩

/-- A variable is missed if white space stands before its semicolon. -/
theorem scan_insertSpace_variable :
    ((State.start .empty).run "int x".toList).mode = .word ['x'] ∧
      scan ("int x" ++ " " ++ String.singleton ';' ++ "") .empty ≠
        scan ("int x" ++ String.singleton ';' ++ "") .empty := by
  refine ⟨by decide +kernel, fun h => ?_⟩
  exact absurd (congrArg (·.children.map (·.name)) h) (by decide +kernel)

/-- Marks that decide something, with an effect on the nodes, or their types and values. -/
example :
    [("int x = g((", "a", ',', "b));"), ("void f(", "int", ')', ";"),
      ("typedef struct \x7b int y; \x7d ", "t", ';', ""), ("typedef int ", "t", ',', "u;"),
      ("typedef int (*f) ", "t", ';', ""), ("int ", "x", ',', "y;"),
      ("extern int ", "x", ',', "char y;")].all fun (before, word, mark, after) =>
    let s := (State.start .empty).run (before ++ word).toList
    let outline := fun source : String => (scan source .empty).children.map fun n =>
      (n.label?, n.typeText, n.attrs.initial, n.children.length)
    s.mode == .word word.toList.reverse && s.scope.decides word mark &&
      outline (before ++ word ++ " " ++ String.singleton mark ++ after) !=
        outline (before ++ word ++ String.singleton mark ++ after) := by
  decide +kernel

end HeaderDocs.Scan
