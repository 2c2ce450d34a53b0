import HeaderDocs.Proofs.Scan.Aliases
import HeaderDocs.Proofs.Scan.InitialValues

/-!
# Variables with initial values

A variable is documented with the text of its initial value. But for white space this text has the
characters of the value that are kept, which need not be all of them.

* `InitializedVariable.recorded_unless_passed`: what is documented of a variable, and that this is the
  whole value exactly if nothing of it is passed over.
-/
namespace HeaderDocs.Scan

open HeaderDocs.Text

/-- The characters of a text that are not white space. -/
def withoutSpace (cs : List Char) : List Char := cs.filter (!isSpace ·)

/-- A run is written out with nothing but white space between its fragments. -/
theorem withoutSpace_text (run : Run) :
    withoutSpace run.text.toList = withoutSpace (run.texts.flatMap String.toList) :=
  run.filter_text (by decide)

/-! ## Variables -/

structure InitializedVariable where
  type : NamedType
  name : Name
  value : String
  valid : isInitialValue value.toList = true

namespace InitializedVariable

variable (d : InitializedVariable)

def opening : List Piece := d.type.pieces ++ [.ofName d.name, .mark '=']

def Spelled (cs : List Char) : Prop :=
  ∃ before, Spaced d.opening before ∧ cs = before ++ (d.value.toList ++ [';'])

def parts : List String := ValueReader.parts {} d.value.toList

/-- The characters of the value that are documented. -/
def kept : List Char := withoutSpace (ValueReader.kept {} d.value.toList)

/-- Whether the variable is recorded. Only a value that ends in a word may have the word `operator`
in it or before it. -/
def isRecorded : Bool :=
  ValueReader.endsInWord {} d.value.toList ||
    !(d.type.texts ++ d.name.text :: d.parts).contains "operator"

theorem withoutSpace_text_value {value : Run} (h : value.texts = d.parts) :
    withoutSpace value.text.toList = d.kept := by
  rw [withoutSpace_text, h, parts, ValueReader.flatMap_parts d.valid]
  rfl

/-! ## The run -/

/-- The run of the variable, with the fragments of its value. -/
def toRun (spaced spacedEquals : Bool) (value : Run) : Run :=
  d.type.toRun false ++ ⟨d.name.text, spaced⟩ :: ⟨"=", spacedEquals⟩ :: value

theorem exists_foldl_opening :
    ∃ spaced spacedEquals, d.opening.foldl Run.pushPiece [] = d.toRun spaced spacedEquals [] := by
  obtain ⟨spaced, hname⟩ := exists_pushWord (d.type.toRun false) d.name.text
  have hequals : ∃ spacedEquals, Run.pushPiece (d.type.toRun false ++ [⟨d.name.text, spaced⟩])
      (.mark '=') = d.type.toRun false ++ [⟨d.name.text, spaced⟩] ++ [⟨"=", spacedEquals⟩] := ⟨_, rfl⟩
  obtain ⟨spacedEquals, hequals⟩ := hequals
  refine ⟨spaced, spacedEquals, ?_⟩
  rw [opening, List.foldl_append, d.type.foldl_pieces awaits_nil, List.nil_append, List.foldl_cons,
    show Run.pushPiece _ (Piece.ofName d.name) = _ from hname, List.foldl_cons, hequals]
  simp [toRun]

theorem depth_opening : d.opening.foldlM Piece.depth? 0 = some 0 := by
  rw [opening, List.foldlM_append, d.type.depth_pieces]
  rfl

variable {spaced spacedEquals : Bool} {value : Run}

theorem texts_toRun : (d.toRun spaced spacedEquals value).texts =
    d.type.texts ++ List.replicate d.type.stars "*" ++ d.name.text :: "=" :: value.texts := by
  rw [← d.type.texts_toRun false]
  simp [toRun, Run.texts]

theorem toRun_append (more : Run) :
    d.toRun spaced spacedEquals value ++ more = d.toRun spaced spacedEquals (value ++ more) := by
  simp [toRun]

theorem head?_texts_toRun :
    (d.toRun spaced spacedEquals value).texts.head? = d.type.texts.head? := by
  have hne : d.type.texts ≠ [] := by simpa [NamedType.texts] using d.type.words_ne_nil
  rw [texts_toRun, List.append_assoc, List.head?_append_of_ne_nil _ hne]

theorem ofRun?_toRun : Declarator.ofRun? (d.toRun spaced spacedEquals value) =
    some { name := d.name.text, type := d.type.toRun false, initial := some value.text } := by
  have hequals : "=" ∉ (d.type.toRun false).texts :=
    d.type.notMem_texts_toRun (fun w => w.text_ne (by decide)) (by decide) false
  have hclose : Fragment.startsWith ⟨d.name.text, spaced⟩ ')' = false := by
    have hnot := d.name.notMem (by decide : isWordChar ')' = false)
    unfold Fragment.startsWith
    simpa using fun he => hnot (List.mem_of_head? he)
  rw [toRun, ofRun?_named hequals ⟨d.name.text, spaced⟩ (d.name.text_ne (by decide)) hclose,
    d.type.closeUp_toRun]
  · rfl
  · simp

/-- A semicolon that finds the value in the run declares the variable, unless there is the word
`operator`. -/
theorem declaresVariable_toRun (hleft : d.type.texts.head?.any (isLeftOut .root) = false)
    {c : Context} (hc : c.Declares) (hparens : c.parens = 0)
    (hrun : c.run = d.toRun spaced spacedEquals value) :
    OpenScope.declaresVariable .root c =
      !(d.type.texts ++ d.name.text :: value.texts).contains "operator" := by
  have hequals : ((d.toRun spaced spacedEquals value).texts.drop 2).contains "=" = true := by
    obtain ⟨w, ws, hwords⟩ := List.exists_cons_of_ne_nil d.type.words_ne_nil
    have hlength : 2 ≤ (d.type.texts ++ List.replicate d.type.stars "*" ++ [d.name.text]).length := by
      simp [NamedType.texts, hwords]
      omega
    rw [texts_toRun, List.append_cons, List.drop_append_of_le_length hlength]
    simp
  have hoperator : (d.toRun spaced spacedEquals value).texts.contains "operator" =
      (d.type.texts ++ d.name.text :: value.texts).contains "operator" := by
    rw [texts_toRun]
    simp [List.mem_replicate]
  unfold OpenScope.declaresVariable
  dsimp only
  rw [hc.braces, hparens, hrun, hequals, hoperator, head?_texts_toRun, hleft]
  simp

def toNode (initial : String) : Node :=
  Context.variableNode {}
    { name := d.name.text, type := d.type.toRun false, initial := some initial }

end InitializedVariable

/-! ## Reading -/

namespace State

variable {t : State} {d : InitializedVariable} (spaced spacedEquals : Bool) (value : Run)
  {r : ValueReader}

theorem step_semicolon_word (hroot : t.scope.node.kind = .root)
    (htypedef : d.type.texts.head? ≠ some "typedef")
    (hleft : d.type.texts.head?.any (isLeftOut .root) = false) (hparens : r.parens = 0)
    (hword : r.inWord = true) (claim : Option (List Claim)) :
    ∃ more s claim', more.texts = r.ended ∧ t.scope.Gains (d.toNode (Run.text (value ++ more))) s ∧
      (t.inValue {} r (d.toRun spaced spacedEquals value) claim).step ';' =
        (t.inScope s).inContext { claim := claim' } := by
  obtain ⟨layer, text, parens⟩ := r
  simp only [ValueReader.inWord, Bool.and_eq_true, beq_iff_eq, Bool.not_eq_true',
    List.isEmpty_eq_false_iff] at hword hparens
  obtain ⟨rfl, htext⟩ := hword
  subst hparens
  obtain ⟨first, text, rfl⟩ := List.exists_cons_of_ne_nil htext
  let word := String.ofList (first :: text).reverse
  let c : Context := { run := d.toRun spaced spacedEquals value, claim }
  have hc : c.Declares := ⟨rfl, rfl, rfl, rfl, rfl, rfl⟩
  have hrun : c.run ≠ [] := by simp [c, InitializedVariable.toRun]
  have hstart : c.startRun = c := Context.startRun_of_run hrun
  have hhead : c.run.texts.head? = d.type.texts.head? := d.head?_texts_toRun
  obtain ⟨spacedWord, hpush⟩ := exists_pushWord c.run word
  have hd : Declarator.ofRun? (c.startRun.run.pushWord word) =
      some { name := d.name.text, type := d.type.toRun false
             initial := some (Run.text (value ++ [⟨word, spacedWord⟩])) } := by
    rw [hstart, hpush, d.toRun_append]
    exact d.ofRun?_toRun
  obtain ⟨s, claim', hgains, hend⟩ := OpenScope.word_declares
    (s := { t.scope with context := c }) hc rfl (by rwa [hstart]) (fun he => absurd he hrun)
    (by rwa [hstart, hhead]) (by rwa [hstart, hhead, hroot]) hd (.inr rfl)
  refine ⟨[⟨word, spacedWord⟩], s, claim', rfl,
    ⟨hgains.node, hgains.origin, hgains.attached, hgains.suspended⟩, ?_⟩
  have hnothing : ((t.inScope s).inContext { claim := claim' }).step ';' = _ :=
    step_semicolon_nothing ⟨rfl, rfl, rfl, rfl, rfl, rfl⟩ rfl
  refine Eq.trans ?_ hnothing
  exact congrArg (fun scope => State.plain ';' { t with mode := .plain, scope }) hend

/-- The semicolon behind a value that ends in something else. -/
theorem step_semicolon_noWord (hroot : t.scope.node.kind = .root)
    (htypedef : d.type.texts.head? ≠ some "typedef")
    (hleft : d.type.texts.head?.any (isLeftOut .root) = false) (hparens : r.parens = 0)
    (hlayer : r.layer = .code ∨ r.layer = .slash) (hword : r.inWord = false)
    (claim : Option (List Claim)) :
    ∃ more, more.texts = r.ended ∧
      let operator := (d.type.texts ++ d.name.text :: Run.texts (value ++ more)).contains "operator"
      (operator = false → ∃ s claim', t.scope.Gains (d.toNode (Run.text (value ++ more))) s ∧
        (t.inValue {} r (d.toRun spaced spacedEquals value) claim).step ';' =
          (t.inScope s).inContext { claim := claim' }) ∧
      (operator = true → (t.inValue {} r (d.toRun spaced spacedEquals value) claim).step ';' =
        t.inContext { claim }) := by
  have hequals : "=" ∈ (d.toRun spaced spacedEquals value).texts := by
    rw [d.texts_toRun]
    simp
  have hhead : ∀ value, (d.toRun spaced spacedEquals value).texts.head? ≠ some "typedef" :=
    fun value => by rwa [d.head?_texts_toRun]
  have hcode : r.layer.isLiteral = false ∧ r.layer.isCode ';' = true := by
    rcases hlayer with h | h <;> rw [h] <;> decide
  obtain ⟨more, hmore, hstep⟩ := step_ended (t := t) (c := {}) ⟨rfl, rfl, rfl, rfl, rfl, rfl⟩ hequals
    (hhead value) claim hcode.1 hcode.2 (by simp [ValueReader.continues, hword])
    fun h => by simp [hword] at h
  rw [d.toRun_append, hparens] at hstep
  let c : Context := { run := d.toRun spaced spacedEquals (value ++ more), claim }
  have hc : c.Declares := ⟨rfl, rfl, rfl, rfl, rfl, rfl⟩
  have hdeclares := d.declaresVariable_toRun hleft hc rfl
    (rfl : c.run = d.toRun spaced spacedEquals (value ++ more))
  rw [← hroot] at hdeclares
  refine ⟨more, hmore, fun hoperator => ?_, fun hoperator => ?_⟩
  · rw [hoperator] at hdeclares
    obtain ⟨s, claim', hgains, hend⟩ := step_semicolon_declares (t := t) hc (hhead _) hdeclares
      d.ofRun?_toRun
    exact ⟨s, claim', hgains, hstep.trans hend⟩
  · rw [hoperator] at hdeclares
    exact hstep.trans (step_semicolon_dropped hc (hhead _) hdeclares)

theorem run_initialized (hroot : t.scope.node.kind = .root)
    (hlead : d.type.texts.head? ∉ [some "typedef", some "static", some "extern"]) {cs : List Char}
    (hcs : d.Spelled cs) :
    (d.isRecorded = true → ∃ initial s claim, withoutSpace initial.toList = d.kept ∧
      t.scope.Gains (d.toNode initial) s ∧
      (t.inContext {}).run cs = (t.inScope s).inContext { claim }) ∧
    (d.isRecorded = false → ∃ claim, (t.inContext {}).run cs = t.inContext { claim }) := by
  obtain ⟨before, hbefore, rfl⟩ := hcs
  obtain ⟨htypedef, hleft⟩ := head_of_leads hlead
  obtain ⟨w, ws, hwords⟩ := List.exists_cons_of_ne_nil d.type.words_ne_nil
  have hfirst : ∀ p, d.opening.head? = some p → Context.Admits {} t.scope.node.kind p := by
    intro p hp
    rw [InitializedVariable.opening, NamedType.pieces, hwords] at hp
    obtain rfl := Option.some.inj hp
    refine ⟨fun _ h => ?_, fun _ he => htypedef ?_⟩
    · rw [hroot] at h
      cases h
    · rw [NamedType.texts, hwords]
      exact congrArg some he
  obtain ⟨spaced, spacedEquals, hopening⟩ := d.exists_foldl_opening
  obtain ⟨claim, hread⟩ := run_pieces_of_base (t := t) (c := {}) hbefore
    ⟨rfl, rfl, rfl, rfl, rfl, rfl⟩ rfl (by decide) hfirst d.depth_opening (d.value.toList ++ [';'])
  rw [show ([] : Run) = ({} : Context).run from rfl] at hopening
  rw [hopening] at hread
  obtain ⟨value, claim', hvalue, hrun⟩ := run_value (t := t) (c := {}) (r := {})
    ⟨rfl, rfl, rfl, rfl, rfl, rfl⟩ rfl
    (show "=" ∈ (d.toRun spaced spacedEquals []).texts by rw [d.texts_toRun]; simp) (by rwa [d.head?_texts_toRun]) claim d.valid
  rw [d.toRun_append, List.nil_append] at hrun
  obtain ⟨hparens, hlayer⟩ := ValueReader.foldl_next d.valid
  have hends : ValueReader.endsInWord {} d.value.toList =
      (d.value.toList.foldl ValueReader.next {}).inWord := rfl
  generalize d.value.toList.foldl ValueReader.next {} = r at *
  have hread' : (t.inContext {}).run (before ++ (d.value.toList ++ [';'])) =
      (t.inValue {} r (d.toRun spaced spacedEquals value) claim').step ';' := by
    rw [hread, run_append]
    exact congrArg (State.step · ';') hrun
  have hparts : ∀ more : Run, more.texts = r.ended → Run.texts (value ++ more) = d.parts :=
    fun more hmore => by
      have htexts : Run.texts (value ++ more) = value.texts ++ more.texts := List.map_append
      rw [htexts, hmore]
      exact hvalue
  rw [hread', InitializedVariable.isRecorded, hends]
  cases hword : r.inWord with
  | true =>
    obtain ⟨more, s, claim'', hmore, hgains, hend⟩ := step_semicolon_word (t := t) spaced spacedEquals
      value hroot htypedef hleft hparens hword claim'
    exact ⟨fun _ => ⟨_, s, claim'', d.withoutSpace_text_value (hparts more hmore), hgains, hend⟩,
      fun h => by cases h⟩
  | false =>
    obtain ⟨more, hmore, hrecorded, hdropped⟩ := step_semicolon_noWord (t := t) spaced spacedEquals
      value hroot htypedef hleft hparens hlayer hword claim'
    rw [hparts more hmore] at hrecorded hdropped
    rw [Bool.false_or, Bool.not_eq_true', Bool.not_eq_false']
    refine ⟨fun hoperator => ?_, fun hoperator => ⟨claim', hdropped hoperator⟩⟩
    obtain ⟨s, claim'', hgains, hend⟩ := hrecorded hoperator
    exact ⟨_, s, claim'', d.withoutSpace_text_value (hparts more hmore), hgains, hend⟩

end State

/-! ## What is recorded -/

namespace InitializedVariable

variable (d : InitializedVariable)

/-- A node that documents the variable with an initial value. -/
structure Documents (initial : String) (n : Node) : Prop where
  kind : n.kind = .var
  name : n.name = some d.name.text
  typeText : n.typeText = d.type.text
  initial : n.attrs.initial = some initial

/-- The tree documents the variable with its whole value, but for white space. -/
def IsKeptIn (tree : Node) : Prop :=
  ∃ n ∈ tree.children, ∃ initial, d.Documents initial n ∧
    withoutSpace initial.toList = withoutSpace d.value.toList

theorem documents_toNode (initial : String) : d.Documents initial (d.toNode initial) := by
  obtain ⟨hkind, hname, htype, hinitial⟩ := Context.variableNode_shows {}
    { name := d.name.text, type := d.type.toRun false, initial := some initial }
  exact ⟨hkind, hname, htype.trans (d.type.text_toRun false), hinitial⟩

theorem Documents.label? {d : InitializedVariable} {initial : String} {n : Node}
    (h : d.Documents initial n) : n.label? = some (.var, d.name.text) := by
  rw [Node.label?, h.name, Option.map_some, h.kind]

/-- A variable with an initial value is recorded with the characters of the value that are kept, as
the only variable of its name. -/
theorem recorded_unless_passed
    (hlead : d.type.texts.head? ∉ [some "typedef", some "static", some "extern"])
    (hname : d.name.text.toList.head? ≠ some '_') {tree : Node} (hroot : tree.kind = .root)
    (harranged : Node.Arranged tree.children) {text : String} (h : d.Spelled text.toList) :
    (d.isRecorded = true → ∃ n initial, d.Documents initial n ∧
      withoutSpace initial.toList = d.kept ∧
      ∀ m, m ∈ (scan text tree).children ↔
        m = n ∨ m ∈ tree.children ∧ m.label? ≠ some (.var, d.name.text)) ∧
    (d.isRecorded = false → scan text tree = tree) ∧
    ((∀ m ∈ tree.children, m.label? ≠ some (.var, d.name.text)) →
      (d.IsKeptIn (scan text tree) ↔
        d.isRecorded = true ∧ d.kept = withoutSpace d.value.toList)) := by
  have hstart : State.start tree = (State.start tree).inContext {} := by
    simp [State.start, OpenScope.begin, State.inContext, Context.ofScope, hroot]
  obtain ⟨hrecorded, hdropped⟩ := State.run_initialized (t := State.start tree) hroot hlead h
  rw [← hstart] at hrecorded hdropped
  have hrecorded : d.isRecorded = true → ∃ n initial, d.Documents initial n ∧
      withoutSpace initial.toList = d.kept ∧
      ∀ m, m ∈ (scan text tree).children ↔
        m = n ∨ m ∈ tree.children ∧ m.label? ≠ some (.var, d.name.text) := by
    intro hd
    obtain ⟨initial, s, claim, hinitial, hgains, hrun⟩ := hrecorded hd
    have hscan : scan text tree = record tree (d.toNode initial) := by
      unfold scan scanWithEvents
      rw [hrun]
      exact hgains.node
    have hshown := d.documents_toNode initial
    obtain ⟨n, hn, hmem⟩ := mem_children_record harranged
      (show (d.toNode initial).isPrivate = false from (by decide +kernel : Comment.isPrivate "" = false))
      hshown.name
      (d.name.isRecordable_iff.mpr hname)
    refine ⟨n, initial, ?_, hinitial, fun m => ?_⟩
    · obtain rfl | ⟨access, rfl⟩ := hn
      · exact hshown
      · exact ⟨hshown.kind, hshown.name, hshown.typeText, hshown.initial⟩
    · rw [hscan, hmem, hshown.label?]
  have hdropped : d.isRecorded = false → scan text tree = tree := by
    intro hd
    obtain ⟨claim, hrun⟩ := hdropped hd
    unfold scan scanWithEvents
    rw [hrun]
    rfl
  refine ⟨hrecorded, hdropped, fun hnew => ?_⟩
  cases hd : d.isRecorded with
  | false =>
    rw [hdropped hd]
    refine ⟨?_, fun he => by cases he.1⟩
    rintro ⟨m, hm, initial, hshown, -⟩
    exact absurd hshown.label? (hnew m hm)
  | true =>
    obtain ⟨n, initial, hshown, hinitial, hmem⟩ := hrecorded hd
    constructor
    · rintro ⟨m, hm, other, hother, hvalue⟩
      obtain rfl := ((hmem m).mp hm).resolve_right fun hold => hnew m hold.1 hother.label?
      obtain rfl : initial = other := Option.some.inj (hshown.initial.symm.trans hother.initial)
      exact ⟨rfl, hinitial.symm.trans hvalue⟩
    · rintro ⟨-, hkept⟩
      exact ⟨n, (hmem n).mpr (.inl rfl), initial, hshown, hinitial.trans hkept⟩

/-- A value with a call, a literal and brackets, of which nothing is passed over. -/
theorem recorded_unless_passed_mask :
    let name (text : String) (h : isName text.toList = true) : Name := ⟨text, h⟩
    let d : InitializedVariable := {
      type := { words := [name "volatile" (by decide +kernel), name "short" (by decide +kernel)], stars := 1
                words_ne_nil := List.cons_ne_nil _ _ }
      name := name "bits" (by decide +kernel)
      value := " f(x, ' ;')\n + ~mask[2] & 0x1F"
      valid := by decide +kernel }
    let text := "volatile short *bits = f(x, ' ;')\n + ~mask[2] & 0x1F;"
    d.type.texts.head? ∉ [some "typedef", some "static", some "extern"] ∧
      d.name.text.toList.head? ≠ some '_' ∧ Node.Arranged Node.empty.children ∧
      d.Spelled text.toList ∧ d.IsKeptIn (scan text .empty) ∧
      (scan text .empty).children.map (fun n => (n.name, n.typeText, n.attrs.initial)) =
        [(some "bits", "volatile short *", some "f (x, ' ;')+~mask[2] & 0x1F")] := by
  intro name d text
  have hlead : d.type.texts.head? ∉ [some "typedef", some "static", some "extern"] := by
    decide +kernel
  have hname : d.name.text.toList.head? ≠ some '_' := by decide +kernel
  have harranged : Node.Arranged Node.empty.children := ⟨.nil, .nil, nofun, Nat.zero_le _, nofun⟩
  have hopening : Spaced d.opening _ :=
    .word (by decide : IsGap [' ']) (by simp) <| .word (by decide : IsGap [' ']) (by simp) <|
      .mark (by decide : IsGap []) <| .word (by decide : IsGap [' ']) (by simp) <|
        .mark (by decide : IsGap []) .nil
  have hspelled : d.Spelled text.toList := ⟨_, hopening, by decide +kernel⟩
  obtain ⟨-, -, hkept⟩ := d.recorded_unless_passed hlead hname rfl harranged hspelled
  exact ⟨hlead, hname, harranged, hspelled, (hkept nofun).mpr ⟨by decide +kernel, by decide +kernel⟩,
    by decide +kernel⟩

/-- A bar is passed over, and with braces the variable is lost. -/
theorem not_isKeptIn_bar :
    let name (text : String) (h : isName text.toList = true) : Name := ⟨text, h⟩
    let d : InitializedVariable := {
      type := { words := [name "short" (by decide +kernel)], words_ne_nil := List.cons_ne_nil _ _ }
      name := name "bits" (by decide +kernel)
      value := " a | b"
      valid := by decide +kernel }
    d.Spelled "short bits = a | b;".toList ∧ ¬ d.IsKeptIn (scan "short bits = a | b;" .empty) ∧
      (scan "short bits = a | b;" .empty).children.map (·.attrs.initial) = [some "a b"] ∧
      (scan "short bits = \x7b1\x7d;" .empty).children = [] := by
  intro name d
  have hopening : Spaced d.opening _ :=
    .word (by decide : IsGap [' ']) (by simp) <| .word (by decide : IsGap [' ']) (by simp) <|
      .mark (by decide : IsGap []) .nil
  have hinitial : ∀ n ∈ (scan "short bits = a | b;" .empty).children, n.attrs.initial = some "a b" := by
    decide +kernel
  refine ⟨⟨_, hopening, by decide +kernel⟩, ?_, by decide +kernel, by decide +kernel⟩
  rintro ⟨n, hn, initial, hshown, hvalue⟩
  obtain rfl : "a b" = initial := Option.some.inj ((hinitial n hn).symm.trans hshown.initial)
  revert hvalue
  decide +kernel

end InitializedVariable

end HeaderDocs.Scan
