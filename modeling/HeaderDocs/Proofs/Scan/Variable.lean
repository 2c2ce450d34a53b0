import HeaderDocs.Proofs.Scan.DeclaratorEnds
import HeaderDocs.Proofs.Scan.LeftOut
import HeaderDocs.Proofs.Scan.Prototypes

/-!
# Variables, with a comment that waits

A declaration at the top level is read with a comment waiting. It records a node, and the comment is
used up, or it is passed over, and the comment waits on. A variable is passed over if it starts with
`static` or `extern`, and also if it has no value and white space stands before its semicolon.

* `Variable.records`, `Variable.passes`.
-/
namespace HeaderDocs.Scan

open HeaderDocs.Text

/-! ## Outcomes -/

section

variable (s : OpenScope) (comment : Option String) (cs : List Char)

/-- The text records a node, for which the waiting comment is used up. -/
def Records (node : Node) : Prop :=
  ∃ s' : OpenScope, s'.node = record s.node node ∧
    (State.reading s { comment }).run cs = State.reading s' {}

/-- The text is passed over, and the comment waits on. -/
def PassesOver : Prop := (State.reading s { comment }).run cs = State.reading s { comment }

end

variable {s : OpenScope} {run : Run} {comment : Option String} {claim : Option (List Claim)}

/-! ## Recording a variable -/

/-- The node of a variable that a comment describes, if there is one. -/
def Declarator.toVariable (d : Declarator) (comment : Option String) : Node :=
  (d.toNode .var).describeIf comment

namespace Declarator

variable (d : Declarator) (comment : Option String)

theorem label?_toVariable : (d.toVariable comment).label? = some (.var, d.name) := by
  cases comment <;> rfl

theorem hasScope_toVariable : (d.toVariable comment).hasScope = false := by
  cases comment <;> rfl

/-- A variable without a comment has no description, which shows as an empty one does. -/
theorem descriptionText_toVariable :
    (d.toVariable comment).descriptionText = (Comment.normalize (comment.getD "")).text := by
  cases comment with
  | none =>
    rw [Option.getD_none, Comment.normalize_empty]
    rfl
  | some raw =>
    have hdescribe : d.toVariable (some raw) = { d.toNode .var with
        children := (d.toNode .var).children ++
          [Node.descriptionOf (Comment.normalize raw).text] } := by
      refine describe_undescribed (by decide : Kind.var ≠ .argument) (fun c hc => ?_) raw
      obtain rfl := List.mem_singleton.mp hc
      exact (by decide : Kind.typeExpr ≠ .description)
    rw [hdescribe]
    exact Node.text_descriptionOf _

end Declarator

theorem declareVariable_waiting {d : Declarator} (hd : Declarator.ofRun? run = some d)
    (s : OpenScope) (comment : Option String) (claim : Option (List Claim)) :
    ∃ s' : OpenScope, s'.node = record s.node (d.toVariable comment) ∧ ∃ claim',
      ({ s with context := { run, comment, claim } } : OpenScope).declareVariable ';' =
        { s' with context := { claim := claim' } } := by
  obtain ⟨s', claim', hgains, hdeclare⟩ := OpenScope.declareVariable_gains
    (s := { s with context := { run, comment, claim } }) ⟨rfl, rfl, rfl, rfl, rfl, rfl⟩ hd ';'
  exact ⟨s', hgains.node, claim', hdeclare⟩

/-! ## Semicolons -/

theorem run_lineEnd {gap : List Char} (hgap : IsGap gap) :
    (State.reading s { comment, claim }).run (gap ++ ['\n']) = State.reading s { comment } := by
  have hline : IsGap (gap ++ ['\n']) := hgap.append (by decide)
  rw [State.run_gap rfl hline, if_pos (by simp)]
  rfl

theorem step_semicolon_idle (hroot : s.node.kind = .root)
    (htypedef : run.texts.head? ≠ some "typedef")
    (hidle : OpenScope.declaresVariable .root { run } = false) :
    (State.reading s { run, comment, claim }).step ';' = State.reading s { comment, claim } :=
  State.step_semicolon_dropped (t := { scope := s }) (c := { run, comment, claim })
    ⟨rfl, rfl, rfl, rfl, rfl, rfl⟩ htypedef (hroot ▸ hidle)

theorem step_semicolon_nothing (hroot : s.node.kind = .root) :
    (State.reading s { comment, claim }).step ';' = State.reading s { comment, claim } :=
  step_semicolon_idle hroot (show (Run.texts []).head? ≠ some "typedef" by decide) rfl

theorem step_semicolon_variable (hroot : s.node.kind = .root)
    (htypedef : run.texts.head? ≠ some "typedef")
    (hdeclares : OpenScope.declaresVariable .root { run } = true) {d : Declarator}
    (hd : Declarator.ofRun? run = some d) :
    ∃ s' : OpenScope, s'.node = record s.node (d.toVariable comment) ∧ ∃ claim',
      (State.reading s { run, comment, claim }).step ';' = State.reading s' { claim := claim' } := by
  obtain ⟨s', claim', hgains, hstep⟩ := State.step_semicolon_declares (t := { scope := s })
    (c := { run, comment, claim }) ⟨rfl, rfl, rfl, rfl, rfl, rfl⟩ htypedef (hroot ▸ hdeclares) hd
  exact ⟨s', hgains.node, claim', hstep⟩

/-! ## Variables -/

/-- A word for which a declaration is left out at the top level. -/
inductive Storage where
  | static
  | external
deriving DecidableEq, Repr

def Storage.word : Storage → Identifier
  | static => .ofText "static" (by decide)
  | external => .ofText "extern" (by decide)

/-- A type after a word for which its declaration is left out. -/
def WrittenType.after (storage : Option Storage) (t : WrittenType) : WrittenType :=
  { t with
    words := (storage.map (·.word)).toList ++ t.words
    words_ne_nil := by simp [t.words_ne_nil] }

structure Variable where
  type : WrittenType
  name : Identifier
  value : Option PlainWord := none
  /-- Whether white space stands before the semicolon. -/
  apart : Bool := false
  leads : type.texts.head? ∉ [some "typedef", some "static", some "extern"]

namespace Variable

variable (v : Variable) (storage : Option Storage)

/-- The tokens before the last word. -/
def opening : List Token :=
  (v.type.after storage).tokens ++
    if v.value.isSome then [.word v.name.toPlainWord, .mark '='] else []

def last : PlainWord := v.value.getD v.name.toPlainWord

/-- The texts of a variable with the end of its line. -/
inductive Spelled : List Char → Prop
  | intro {cs gap gap' : List Char} : Spells (v.opening storage) cs → IsGap gap →
      v.apart = !gap.isEmpty → IsGap gap' →
      Spelled (cs ++ (v.last.text.toList ++ (gap ++ ';' :: (gap' ++ ['\n']))))

/-- The words of a declaration without its marks. -/
def texts : List String := v.type.texts ++ v.name.text :: (v.value.map (·.text)).toList

/-- Whether the semicolon is not seen to end the declaration of a variable: white space stands before
it, and there is no value or the declaration seems to be one of an operator. -/
def isMissed : Bool := v.apart && (v.value.isNone || v.texts.contains "operator")

def declarator : Declarator :=
  { name := v.name.text, type := v.type.toRun, initial := v.value.map (·.text) }

end Variable

/-- The words before the last one become the run of the context. -/
theorem leads_opening_variable (hroot : s.node.kind = .root) (v : Variable)
    (storage : Option Storage)
    (comment : Option String) :
    ∃ run : Run, run ≠ [] ∧
      (run.pushWord v.last.text).texts = (v.type.after storage).toRun.texts ++
        v.name.text :: (v.value.toList.flatMap fun value => ["=", value.text]) ∧
      Declarator.ofRun? (run.pushWord v.last.text) =
        some { v.declarator with type := (v.type.after storage).toRun } ∧
      Leads s { comment } (v.opening storage) { run, comment } [] := by
  have hc : ({ comment } : Context).Collects := ⟨rfl, rfl, rfl, rfl⟩
  unfold Variable.opening Variable.last Variable.declarator
  generalize v.type.after storage = type
  obtain ⟨spaced, hname⟩ := exists_pushWord type.toRun v.name.text
  cases v.value with
  | none =>
    refine ⟨type.toRun, type.toRun_ne_nil, ?_, ?_, ?_⟩
    · simp [hname, Run.texts]
    · simpa [hname] using ofRun?_parameter type v.name.toPlainWord spaced [] (by simp)
    · exact leads_type hc hroot rfl type (by simp)
  | some value =>
    have hend : EndsInWord (type.toRun ++ [⟨v.name.text, spaced⟩]) :=
      endsInWord_concat _ v.name.toPlainWord spaced
    obtain ⟨spacedValue, hvalue⟩ := exists_pushWord
      (type.toRun ++ [⟨v.name.text, spaced⟩] ++ [⟨"=", true⟩]) value.text
    refine ⟨type.toRun ++ [⟨v.name.text, spaced⟩] ++ [⟨"=", true⟩], by simp, ?_, ?_, ?_⟩
    · rw [Option.getD_some, hvalue]
      simp [Run.texts]
    · rw [Option.getD_some, hvalue]
      exact ofRun?_valued type v.name.toPlainWord value spaced spacedValue
    · have htype : Leads s { comment } (type.tokens ++ [.word v.name.toPlainWord, .mark '='])
          { run := type.toRun, comment } [.word v.name.toPlainWord, .mark '='] :=
        leads_type hc hroot rfl type (by simp)
      have hword : Leads s { run := type.toRun, comment } [.word v.name.toPlainWord, .mark '=']
          { run := type.toRun ++ [⟨v.name.text, spaced⟩], comment } [.mark '='] :=
        leads_collect (hc.withRun type.toRun) hroot hname fun m hm => by
          cases hm
          decide
      exact (htype.trans hword).trans
        (leads_equals (hc.withRun _) hend.ne_nil (hend.pushMark "="))

theorem word_semicolon (hroot : s.node.kind = .root) (hrun : run ≠ [])
    (htypedef : run.texts.head? ≠ some "typedef") (word : String) :
    ({ s with context := { run, comment, claim } } : OpenScope).word word ';' =
      if run.texts.head?.any (isLeftOut .root) then { s with context := { comment, claim } }
      else ({ s with context := { run := run.pushWord word, comment, claim } } :
        OpenScope).declareVariable ';' := by
  have hstart : ({ run, comment, claim } : Context).startRun = { run, comment, claim } :=
    Context.startRun_of_base rfl
  have hends := OpenScope.word_ends (s := { s with context := { run, comment, claim } })
    ⟨rfl, rfl, rfl, rfl, rfl, rfl⟩ rfl (by rwa [hstart]) (fun _ => by rw [hroot]; rfl)
    (by rwa [hstart]) (.inr rfl) word
  simpa only [hstart, hroot, OpenScope.update, Context.pushWord, Context.dropRun] using hends

theorem run_word_apart (hroot : s.node.kind = .root) (run : Run) (w : PlainWord) {gap : List Char}
    (hgap : IsGap gap) (hne : gap ≠ []) (rest : List Char) :
    ∃ claim', (State.reading s { run, comment, claim }).run (w.text.toList ++ (gap ++ rest)) =
      (State.reading s { run := run.pushWord w.text, comment, claim := claim' }).run rest := by
  obtain ⟨d, gap, rfl⟩ := List.exists_cons_of_ne_nil hne
  have hspace : isSpace d = true := (isGap_cons.mp hgap).1
  have hc : ({ run, comment, claim } : Context).Collects := ⟨rfl, rfl, rfl, rfl⟩
  have hupdate : (State.reading s { run, comment, claim }).update (·.word w.text d) =
      State.reading s { run := run.pushWord w.text, comment, claim } :=
    congrArg (fun scope => ({ scope } : State))
      (hc.word hroot (notMem_of_class (by decide) hspace) w.text)
  obtain ⟨claim', hrest⟩ := run_gap_claim (s := s) (c := { run := run.pushWord w.text, comment })
    rfl claim hgap rest
  refine ⟨claim', ?_⟩
  rw [List.cons_append, State.run_word rfl w (isWordPart_of_isSpace hspace _), hupdate, ← hrest]
  rfl

theorem head?_pushWord (hrun : run ≠ []) (word : String) :
    (run.pushWord word).texts.head? = run.texts.head? := by
  cases run with
  | nil => exact absurd rfl hrun
  | cons f fs => rfl

section

variable {w : PlainWord} {gap gap' : List Char}

theorem run_end_leftOut (hroot : s.node.kind = .root) (hrun : run ≠ [])
    (hleft : run.texts.head?.any (isLeftOut .root) = true) (hgap : IsGap gap) (hgap' : IsGap gap')
    (claim : Option (List Claim)) :
    (State.reading s { run, comment, claim }).run
        (w.text.toList ++ (gap ++ ';' :: (gap' ++ ['\n']))) = State.reading s { comment } := by
  have htypedef : run.texts.head? ≠ some "typedef" := by
    intro he
    rw [he] at hleft
    exact absurd hleft (by decide)
  by_cases hnil : gap = []
  · subst hnil
    have hupdate : (State.reading s { run, comment, claim }).update (·.word w.text ';') =
        State.reading s { comment, claim } := by
      refine congrArg (fun scope => ({ scope } : State)) ?_
      exact (word_semicolon hroot hrun htypedef w.text).trans (if_pos hleft)
    rw [List.nil_append, State.run_word rfl w (by decide : State.isWordPart 0 ';' = false), hupdate]
    change ((State.reading s { comment, claim }).step ';').run _ = _
    rw [step_semicolon_nothing hroot, run_lineEnd hgap']
  · obtain ⟨claim', happart⟩ := run_word_apart hroot run w hgap hnil (';' :: (gap' ++ ['\n']))
    rw [happart]
    change ((State.reading s _).step ';').run _ = _
    have hhead := head?_pushWord hrun w.text
    rw [step_semicolon_idle hroot (hhead ▸ htypedef)
      (OpenScope.declaresVariable_of_isLeftOut (hhead ▸ hleft)), run_lineEnd hgap']

/-- The end of a declaration of which nothing is made, for white space before the semicolon. -/
theorem run_end_missed (hroot : s.node.kind = .root) (hrun : run ≠ [])
    (htypedef : run.texts.head? ≠ some "typedef")
    (hidle : OpenScope.declaresVariable .root { run := run.pushWord w.text } = false)
    (hgap : IsGap gap) (hne : gap ≠ []) (hgap' : IsGap gap') (claim : Option (List Claim)) :
    (State.reading s { run, comment, claim }).run
        (w.text.toList ++ (gap ++ ';' :: (gap' ++ ['\n']))) = State.reading s { comment } := by
  obtain ⟨claim', happart⟩ := run_word_apart hroot run w hgap hne (';' :: (gap' ++ ['\n']))
  rw [happart]
  change ((State.reading s _).step ';').run _ = _
  rw [step_semicolon_idle hroot (head?_pushWord hrun w.text ▸ htypedef) hidle, run_lineEnd hgap']

theorem run_end_variable (hroot : s.node.kind = .root) (hrun : run ≠ [])
    (htypedef : run.texts.head? ≠ some "typedef")
    (hleft : run.texts.head?.any (isLeftOut .root) = false) {d : Declarator}
    (hd : Declarator.ofRun? (run.pushWord w.text) = some d)
    (hdeclares : gap ≠ [] → OpenScope.declaresVariable .root { run := run.pushWord w.text } = true)
    (hgap : IsGap gap) (hgap' : IsGap gap') (claim : Option (List Claim)) :
    ∃ s' : OpenScope, s'.node = record s.node (d.toVariable comment) ∧
      (State.reading s { run, comment, claim }).run
        (w.text.toList ++ (gap ++ ';' :: (gap' ++ ['\n']))) = State.reading s' {} := by
  by_cases hnil : gap = []
  · subst hnil
    obtain ⟨s', hnode, claim', hdeclare⟩ := declareVariable_waiting hd s comment claim
    refine ⟨s', hnode, ?_⟩
    have hupdate : (State.reading s { run, comment, claim }).update (·.word w.text ';') =
        State.reading s' { claim := claim' } := by
      refine congrArg (fun scope => ({ scope } : State)) ?_
      refine (word_semicolon hroot hrun htypedef w.text).trans ?_
      rw [if_neg (by simp [hleft])]
      exact hdeclare
    have hroot' : s'.node.kind = .root := by rw [hnode, kind_record, hroot]
    rw [List.nil_append, State.run_word rfl w (by decide : State.isWordPart 0 ';' = false), hupdate]
    change ((State.reading s' { claim := claim' }).step ';').run _ = _
    rw [step_semicolon_nothing hroot', run_lineEnd hgap']
  · obtain ⟨claim', happart⟩ := run_word_apart hroot run w hgap hnil (';' :: (gap' ++ ['\n']))
    obtain ⟨s', hnode, claim'', hstep⟩ := step_semicolon_variable hroot
      (head?_pushWord hrun w.text ▸ htypedef) (hdeclares hnil) hd
    refine ⟨s', hnode, ?_⟩
    rw [happart]
    change ((State.reading s _).step ';').run _ = _
    rw [hstep, run_lineEnd hgap']

end

namespace WrittenType

theorem head?_texts_toRun (t : WrittenType) : t.toRun.texts.head? = t.texts.head? := by
  rw [texts_toRun, List.head?_append_of_ne_nil]
  simpa [texts] using t.words_ne_nil

theorem head?_texts_after (t : WrittenType) (k : Storage) :
    (t.after (some k)).texts.head? = some k.word.text := rfl

end WrittenType

theorem isLeftOut_storage (k : Storage) : isLeftOut .root k.word.text = true := by
  cases k <;> decide

namespace Variable

variable {v : Variable}

def toNode (v : Variable) (comment : Option String) : Node := v.declarator.toVariable comment

theorem declaresVariable_run (v : Variable) {run : Run}
    (hrun : run.texts = v.type.toRun.texts ++
      v.name.text :: (v.value.toList.flatMap fun value => ["=", value.text])) :
    OpenScope.declaresVariable .root { run } = (v.value.isSome && !v.texts.contains "operator") := by
  have hwords : ∀ text : String, text.toList.head?.any (!isAsciiWordChar ·) = true → text ≠ "*" →
      text ∉ v.type.toRun.texts ++ [v.name.text] := by
    intro text htext hstar hm
    rcases List.mem_append.mp hm with hm | hm
    · exact v.type.notMem_texts_toRun (fun w => w.text_ne htext) hstar hm
    · exact v.name.text_ne htext (List.mem_singleton.mp hm).symm
  cases hvalue : v.value with
  | none =>
    rw [hvalue] at hrun
    exact OpenScope.declaresVariable_of_notMem (hrun ▸ hwords "=" (by decide) (by decide))
      (hrun ▸ hwords "(" (by decide) (by decide))
  | some value =>
    have hsplit : run.texts = (v.type.toRun.texts ++ [v.name.text]) ++ ["=", value.text] := by
      rw [hrun, hvalue]
      simp
    have hdrop : (run.texts.drop 2).contains "=" = true := by
      have hlength : 2 ≤ (v.type.toRun.texts ++ [v.name.text]).length := by
        have := List.length_pos_iff.mpr v.type.toRun_ne_nil
        simp only [Run.texts, List.length_append, List.length_map, List.length_singleton]
        omega
      rw [hsplit, List.drop_append_of_le_length hlength]
      simp
    have hoperator : run.texts.contains "operator" = v.texts.contains "operator" := by
      rw [hsplit, WrittenType.texts_toRun, Variable.texts, hvalue, Bool.eq_iff_iff]
      simp
    have hhead : run.texts.head?.any (isLeftOut .root) = false := by
      rw [hsplit, List.append_assoc, List.head?_append_of_ne_nil _
        (by simpa [Run.texts] using v.type.toRun_ne_nil), WrittenType.head?_texts_toRun]
      exact (head_of_leads v.leads).2
    unfold OpenScope.declaresVariable
    simp only [hdrop, hoperator, hhead]
    simp

/-- The end of the text is read after the words before it. -/
theorem run_spelled (hroot : s.node.kind = .root) {storage : Option Storage} {cs : List Char}
    (hcs : v.Spelled storage cs) (comment : Option String) :
    ∃ (run : Run) (claim : Option (List Claim)) (gap gap' : List Char),
      run ≠ [] ∧ IsGap gap ∧ v.apart = !gap.isEmpty ∧ IsGap gap' ∧
      (run.pushWord v.last.text).texts = (v.type.after storage).toRun.texts ++
        v.name.text :: (v.value.toList.flatMap fun value => ["=", value.text]) ∧
      Declarator.ofRun? (run.pushWord v.last.text) =
        some { v.declarator with type := (v.type.after storage).toRun } ∧
      (State.reading s { comment }).run cs = (State.reading s { run, comment, claim }).run
        (v.last.text.toList ++ (gap ++ ';' :: (gap' ++ ['\n']))) := by
  cases hcs with
  | intro hopening hgap hapart hgap' =>
    rename_i cs gap gap'
    obtain ⟨run, hne, htexts, hd, hleads⟩ := leads_opening_variable hroot v storage comment
    obtain ⟨claim, cs', hcs', hrun⟩ := hleads none cs hopening
    cases hcs'
    refine ⟨run, claim, gap, gap', hne, hgap, hapart, hgap', htexts, hd, ?_⟩
    rw [State.run_append]
    exact congrArg (State.run · _) hrun

theorem records (hroot : s.node.kind = .root) {cs : List Char} (hcs : v.Spelled none cs)
    (hseen : v.isMissed = false) (comment : Option String) :
    Records s comment cs (v.toNode comment) := by
  obtain ⟨run, claim, gap, gap', hne, hgap, hapart, hgap', htexts, hd, hrun⟩ :=
    run_spelled hroot hcs comment
  have hhead : run.texts.head? = v.type.texts.head? := by
    rw [← head?_pushWord hne v.last.text, htexts, List.head?_append_of_ne_nil _
      (by simpa [Run.texts] using WrittenType.toRun_ne_nil _), WrittenType.head?_texts_toRun]
    rfl
  have hdeclares : gap ≠ [] →
      OpenScope.declaresVariable .root { run := run.pushWord v.last.text } = true := by
    intro hgapne
    have hv : v.apart = true := hapart.trans (by simpa using hgapne)
    rw [v.declaresVariable_run htexts]
    simpa [isMissed, hv] using hseen
  obtain ⟨s', hnode, hend⟩ := run_end_variable hroot hne (hhead ▸ (head_of_leads v.leads).1)
    (hhead ▸ (head_of_leads v.leads).2) hd hdeclares hgap hgap' claim
  exact ⟨s', hnode, hrun.trans hend⟩

/-- A variable whose end is missed, or that is left out, is passed over. -/
theorem passes (hroot : s.node.kind = .root) {storage : Option Storage} {cs : List Char}
    (hcs : v.Spelled storage cs) (h : storage.isSome = true ∨ v.isMissed = true)
    (comment : Option String) : PassesOver s comment cs := by
  obtain ⟨run, claim, gap, gap', hne, hgap, hapart, hgap', htexts, -, hrun⟩ :=
    run_spelled hroot hcs comment
  have hhead : run.texts.head? = (v.type.after storage).texts.head? := by
    rw [← head?_pushWord hne v.last.text, htexts, List.head?_append_of_ne_nil _
      (by simpa [Run.texts] using WrittenType.toRun_ne_nil _), WrittenType.head?_texts_toRun]
  cases storage with
  | some k =>
    have hleft : run.texts.head?.any (isLeftOut .root) = true := by
      rw [hhead, WrittenType.head?_texts_after]
      exact isLeftOut_storage k
    exact hrun.trans (run_end_leftOut hroot hne hleft hgap hgap' claim)
  | none =>
    obtain ⟨hv, hvalue⟩ := Bool.and_eq_true_iff.mp (h.resolve_left Bool.false_ne_true)
    have hgapne : gap ≠ [] := by
      rintro rfl
      rw [hv] at hapart
      cases hapart
    have hidle : OpenScope.declaresVariable .root { run := run.pushWord v.last.text } = false := by
      rw [v.declaresVariable_run htexts]
      cases hnone : v.value with
      | none => rfl
      | some value =>
        rw [hnone] at hvalue
        simpa using hvalue
    have htypedef := (head_of_leads v.leads).1
    exact hrun.trans (run_end_missed hroot hne (hhead ▸ htypedef) hidle hgap hgapne hgap' claim)

end Variable

end HeaderDocs.Scan
