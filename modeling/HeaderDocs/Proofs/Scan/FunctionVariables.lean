import HeaderDocs.Proofs.Scan.FunctionPointers
import HeaderDocs.Proofs.Scan.StructBodies

/-!
# Variables that are pointers to functions

`R (*h)(params);` is known as the declaration of a variable at its semicolon, by the fragments that
have been collected. Its name is everything from the first parenthesis on. A declaration that seems
to be one of an operator is dropped there, and the word `operator` is enough for that.

* `FunctionVariable.run_spelled`: reading a declaration in any scope.
* `FunctionVariable.recorded_unless_operator`: what is recorded at the top level and in a structure.
-/
namespace HeaderDocs.Scan

open HeaderDocs.Text

/-! ## Declarations -/

structure FunctionVariable where
  result : NamedType
  name : Name
  parameters : List TypedParameter := []

theorem isName_void : isName "void".toList = true := by decide +kernel

/-- An empty list of parameters as it is written. -/
def voidParameter : TypedParameter := { type := FunctionPointer.singleType "void" isName_void }

namespace TypedParameter

def pieces (p : TypedParameter) : List Piece := p.type.pieces ++ p.name.toList.map .ofName

end TypedParameter

/-- The pieces of parameters, with commas between them. -/
def parameterPieces (p : TypedParameter) (ps : List TypedParameter) : List Piece :=
  p.pieces ++ ps.flatMap fun q => .mark ',' :: q.pieces

/-- The fragments of parameters behind an opening parenthesis. -/
def parameterRun (p : TypedParameter) (ps : List TypedParameter) : Run :=
  p.toRun false ++ ps.flatMap fun q => ⟨",", false⟩ :: q.toRun true

namespace FunctionVariable

variable (f : FunctionVariable)

def listed : TypedParameter × List TypedParameter :=
  match f.parameters with
  | [] => (voidParameter, [])
  | p :: ps => (p, ps)

def parameterText : String :=
  if f.parameters.isEmpty then "void" else String.intercalate ", " (f.parameters.map (·.text))

def declaredName : String := "(*" ++ f.name.text ++ ")(" ++ f.parameterText ++ ")"

def declaration : String :=
  f.result.text ++ (if f.result.stars = 0 then " " else "") ++ f.declaredName ++ ";"

def pieces : List Piece :=
  f.result.pieces ++ [.mark '(', .mark '*', .ofName f.name, .mark ')', .mark '('] ++
    parameterPieces f.listed.1 f.listed.2 ++ [.mark ')']

/-- The fragments that are collected before the semicolon. -/
def toRun : Run :=
  f.result.toRun false ++ (⟨"(", f.result.stars == 0⟩ ::
    ([⟨"*", false⟩, ⟨f.name.text, false⟩, ⟨")", false⟩, ⟨"(", false⟩] ++
      parameterRun f.listed.1 f.listed.2 ++ [⟨")", false⟩]))

def Spelled (cs : List Char) : Prop := ∃ before, Spaced f.pieces before ∧ cs = before ++ [';']

def typeTexts : List String := f.result.texts ++ f.parameters.flatMap (·.type.texts)

/-- The names that the declaration gives, to the variable and to parameters. -/
def names : List String := f.name.text :: f.parameters.filterMap (·.name.map (·.text))

end FunctionVariable

/-! ## Fragments -/

theorem TypedParameter.foldl_pieces {run : Run} {spaced : Bool} (hrun : run.Awaits spaced)
    (p : TypedParameter) : p.pieces.foldl Run.pushPiece run = run ++ p.toRun spaced := by
  unfold TypedParameter.pieces TypedParameter.toRun
  rw [List.foldl_append, p.type.foldl_pieces hrun]
  cases p.name with
  | none => simp
  | some name =>
    have hname : Run.pushWord (run ++ p.type.toRun spaced) name.text =
        run ++ p.type.toRun spaced ++ [⟨name.text, p.type.stars == 0⟩] := by
      unfold NamedType.toRun
      by_cases hzero : p.type.stars = 0
      · rw [hzero, starRun, List.append_nil]
        exact (endsInName_wordsRun p.type.words_ne_nil run spaced).pushWord _
      · rw [← List.append_assoc, awaits_stars _ hzero, beq_eq_false_iff_ne.mpr hzero]
    exact hname.trans (by simp)

theorem foldl_parameterPieces {run : Run} (hrun : run.Awaits false) (p : TypedParameter)
    (ps : List TypedParameter) :
    (parameterPieces p ps).foldl Run.pushPiece run = run ++ parameterRun p ps := by
  have hmore : ∀ (ps : List TypedParameter) (run : Run),
      (ps.flatMap fun q => .mark ',' :: q.pieces).foldl Run.pushPiece run =
        run ++ ps.flatMap fun q => ⟨",", false⟩ :: q.toRun true := by
    intro ps
    induction ps with
    | nil => simp
    | cons q ps ih =>
      intro run
      have hcomma : run.pushPiece (.mark ',') = run ++ [⟨",", false⟩] := rfl
      rw [List.flatMap_cons, List.foldl_append, List.foldl_cons, hcomma,
        q.foldl_pieces (awaits_comma run false), ih]
      simp
  unfold parameterPieces parameterRun
  rw [List.foldl_append, p.foldl_pieces hrun, hmore, List.append_assoc]

theorem tailText_parameterRun (p : TypedParameter) (ps : List TypedParameter) :
    (parameterRun p ps).tailText = String.intercalate ", " ((p :: ps).map (·.text)) := by
  have hmore : ∀ (ps : List TypedParameter) (text : String),
      text ++ Run.tailText (ps.flatMap fun q => ⟨",", false⟩ :: q.toRun true) =
        String.intercalate ", " (text :: ps.map (·.text)) := by
    intro ps
    induction ps with
    | nil => simp
    | cons q ps ih =>
      intro text
      rw [List.flatMap_cons, Run.tailText_append, Run.tailText_cons, q.tailText_toRun, List.map_cons,
        String.intercalate_cons_cons, ← ih q.text]
      simp [spaceIf, ← String.append_assoc]
  rw [parameterRun, Run.tailText_append, p.tailText_toRun, List.map_cons, ← hmore]
  simp [spaceIf]

theorem TypedParameter.depth_pieces (p : TypedParameter) (parens : Nat) :
    p.pieces.foldlM Piece.depth? parens = some parens := by
  rw [pieces, List.foldlM_append, p.type.depth_pieces]
  exact depth_names _ _

theorem depth_parameterPieces (p : TypedParameter) (ps : List TypedParameter) :
    (parameterPieces p ps).foldlM Piece.depth? 1 = some 1 := by
  have hmore : (ps.flatMap fun q => .mark ',' :: q.pieces).foldlM Piece.depth? 1 = some 1 := by
    induction ps with
    | nil => rfl
    | cons q ps ih =>
      have hcomma : Piece.depth? 1 (.mark ',') = some 1 := rfl
      simp [List.foldlM_append, hcomma, q.depth_pieces, ih]
  simp [parameterPieces, List.foldlM_append, p.depth_pieces, hmore]

namespace FunctionVariable

variable (f : FunctionVariable)

theorem foldl_pieces : f.pieces.foldl Run.pushPiece [] = f.toRun := by
  have hresult : f.result.pieces.foldl Run.pushPiece [] = f.result.toRun false :=
    f.result.foldl_pieces awaits_nil
  have hopen : Run.pushPiece (f.result.toRun false) (.mark '(') =
      f.result.toRun false ++ [⟨"(", f.result.stars == 0⟩] :=
    f.result.pushMark_toRun [] "("
  have hopened : Fragment.endsWord ⟨"(", f.result.stars == 0⟩ = false := by
    cases f.result.stars == 0 <;> decide
  have hstar : Run.pushPiece (f.result.toRun false ++ [⟨"(", f.result.stars == 0⟩]) (.mark '*') =
      f.result.toRun false ++ [⟨"(", f.result.stars == 0⟩] ++ [⟨"*", false⟩] := by
    simp [Run.pushPiece, Run.pushMark, Run.push, hopened]
  have hname : ∀ run : Run, Run.pushPiece (run ++ [⟨"*", false⟩]) (.ofName f.name) =
      run ++ [⟨"*", false⟩] ++ [⟨f.name.text, false⟩] := fun run => awaits_star run false f.name.text
  have hclosed : Fragment.endsWord ⟨")", false⟩ = false := by decide
  have hcall : ∀ run : Run, Run.pushPiece (run ++ [⟨")", false⟩]) (.mark '(') =
      run ++ [⟨")", false⟩] ++ [⟨"(", false⟩] := fun run => by
    simp [Run.pushPiece, Run.pushMark, Run.push, hclosed]
  have hclose : ∀ run : Run, Run.pushPiece run (.mark ')') = run ++ [⟨")", false⟩] := fun _ => rfl
  unfold pieces toRun
  rw [List.foldl_append, List.foldl_append, List.foldl_append, hresult]
  simp only [List.foldl_cons, List.foldl_nil, hopen, hstar, hname, hclose, hcall]
  rw [foldl_parameterPieces (awaits_openParen _ false)]
  simp

theorem depth_pieces : f.pieces.foldlM Piece.depth? 0 = some 0 := by
  have hname : Piece.depth? 1 (.ofName f.name) = some 1 := rfl
  have hopen : Piece.depth? 0 (.mark '(') = some 1 := rfl
  have hstar : Piece.depth? 1 (.mark '*') = some 1 := rfl
  have hclose : Piece.depth? 1 (.mark ')') = some 0 := rfl
  simp [pieces, List.foldlM_append, f.result.depth_pieces, depth_parameterPieces, hname, hopen, hstar,
    hclose]

theorem mem_texts_toRun {text : String} (hmark : text ∉ ["*", "(", ")", ",", "void"]) :
    text ∈ f.toRun.texts ↔ text ∈ f.typeTexts ∨ text ∈ f.names := by
  simp only [List.mem_cons, List.not_mem_nil, or_false, not_or] at hmark
  obtain ⟨hstar, hopen, hclose, hcomma, hvoid⟩ := hmark
  have htype : ∀ (t : NamedType) (spaced : Bool), text ∈ (t.toRun spaced).texts ↔ text ∈ t.texts := by
    intro t spaced
    rw [t.texts_toRun]
    simp [hstar]
  have hparameter : ∀ (p : TypedParameter) (spaced : Bool), text ∈ (p.toRun spaced).texts ↔
      text ∈ p.type.texts ∨ ∃ name, p.name = some name ∧ name.text = text := by
    intro p spaced
    have hsplit : (p.toRun spaced).texts = (p.type.toRun spaced).texts ++
        p.name.toList.map (·.text) := by
      simp [TypedParameter.toRun, Run.texts, Function.comp_def]
    rw [hsplit, List.mem_append, htype]
    simp
  have hsplit : f.toRun.texts = (f.result.toRun false).texts ++ "(" :: "*" :: f.name.text :: ")" ::
      "(" :: ((f.listed.1.toRun false).texts ++
        (f.listed.2.flatMap fun q => "," :: (q.toRun true).texts) ++ [")"]) := by
    simp [toRun, parameterRun, Run.texts, List.map_flatMap]
  rw [hsplit]
  unfold typeTexts names listed
  cases f.parameters with
  | nil =>
    have hnone : text ∉ (voidParameter.toRun false).texts := by
      rw [hparameter]
      simp [voidParameter, FunctionPointer.singleType, NamedType.texts, hvoid]
    simp [htype, hnone, hstar, hopen, hclose]
  | cons p ps =>
    simp only [List.mem_append, htype, List.mem_cons, hopen, hstar, hclose, hparameter, false_or,
      List.mem_flatMap, hcomma, List.not_mem_nil, or_false, List.flatMap_cons, List.mem_filterMap,
      Option.map_eq_some_iff, exists_eq_or_imp, and_or_left, exists_or]
    grind

theorem intercalate_listed :
    String.intercalate ", " ((f.listed.1 :: f.listed.2).map (·.text)) = f.parameterText := by
  unfold listed parameterText
  cases f.parameters with
  | nil => decide +kernel
  | cons p ps => rfl

def toDeclarator : Declarator :=
  { name := f.declaredName, type := f.result.toRun false, initial := none }

/-- The name of the declarator is what stands from the first parenthesis on. -/
theorem ofRun?_toRun : Declarator.ofRun? f.toRun = some f.toDeclarator := by
  have hequals : "=" ∉ f.toRun.texts := by
    have hname : ∀ w : Name, w.text ≠ "=" := fun w => w.text_ne (by decide)
    have htype : ∀ t : NamedType, "=" ∉ t.texts := fun t hm => by
      obtain ⟨w, -, hw⟩ := List.mem_map.mp hm
      exact hname w hw
    rw [f.mem_texts_toRun (by decide), typeTexts, names, List.mem_append, List.mem_cons]
    rintro ((hm | hm) | hm | hm)
    · exact htype _ hm
    · obtain ⟨p, -, hp⟩ := List.mem_flatMap.mp hm
      exact htype _ hp
    · exact hname _ hm.symm
    · obtain ⟨p, -, hp⟩ := List.mem_filterMap.mp hm
      obtain ⟨w, -, hw⟩ := Option.map_eq_some_iff.mp hp
      exact hname w hw
  let tail : Run := [⟨"*", false⟩, ⟨f.name.text, false⟩, ⟨")", false⟩, ⟨"(", false⟩] ++
    parameterRun f.listed.1 f.listed.2 ++ [⟨")", false⟩]
  have hrun : f.toRun = f.result.toRun false ++ (⟨"(", f.result.stars == 0⟩ :: tail) := rfl
  have hpart : Declarator.declaredPart f.toRun = f.toRun := Declarator.declaredPart_of_notMem hequals
  have hinitial : Declarator.initial? f.toRun = none := Declarator.initial?_of_notMem hequals
  have hlast : f.toRun.getLast? = some ⟨")", false⟩ := by simp [hrun, tail, List.getLast?_cons]
  have hopen : ∀ g ∈ f.result.toRun false, g.startsWith '(' = false := fun g hg =>
    f.result.startsWith_toRun (by decide) (by decide) false hg
  have hstart : Declarator.nameStart f.toRun ⟨")", false⟩ = (f.result.toRun false).length := by
    unfold Declarator.nameStart
    rw [if_pos (by decide), hrun, List.findIdx?_append, List.findIdx?_eq_none_iff.mpr hopen]
    simp [List.findIdx?_cons, Fragment.startsWith]
  have htail : tail.tailText = "*" ++ f.name.text ++ ")(" ++ f.parameterText ++ ")" := by
    have hparameters := tailText_parameterRun f.listed.1 f.listed.2
    rw [f.intercalate_listed] at hparameters
    simp [tail, Run.tailText_append, Run.tailText_cons, hparameters, ← String.append_assoc]
  have hname : Run.text (⟨"(", f.result.stars == 0⟩ :: tail) = f.declaredName := by
    rw [Run.text_cons, htail, declaredName]
    simp [← String.append_assoc]
  unfold Declarator.ofRun?
  dsimp only
  rw [hpart, hlast]
  dsimp only
  rw [hstart, hinitial, hrun, List.drop_left, List.take_left, hname,
    NamedType.closeUp_toRun]
  rfl

/-- The words of the types are no keywords that make a declaration something else. -/
def Plain : Prop := ∀ word ∈ f.typeTexts,
  word ∉ ["typedef", "static", "extern", "operator", "public", "protected", "private"]

instance : Decidable f.Plain := inferInstanceAs (Decidable (∀ word ∈ f.typeTexts, _))

theorem isFunctionPointer_toRun : f.toRun.isFunctionPointer = true := by
  have hopen : "(" ∉ (f.result.toRun false).texts :=
    f.result.notMem_texts_toRun (fun w => w.text_ne (by decide)) (by decide) false
  have htexts : f.toRun.texts = (f.result.toRun false).texts ++ "(" :: "*" :: f.name.text :: ")" ::
      "(" :: ((parameterRun f.listed.1 f.listed.2).texts ++ [")"]) := by
    simp [toRun, Run.texts]
  have hfind : f.toRun.texts.findIdx? (· == "(") = some (f.result.toRun false).texts.length := by
    rw [htexts, List.findIdx?_append, List.findIdx?_eq_none_iff.mpr fun text ht => by
      simpa using fun he : text = "(" => hopen (he ▸ ht)]
    simp [List.findIdx?_cons]
  have hlength : 0 < (f.result.toRun false).texts.length := by
    simpa [Run.texts] using List.length_pos_iff.mpr (f.result.toRun_ne_nil false)
  unfold Run.isFunctionPointer
  dsimp only
  rw [hfind, htexts]
  simp [hlength, List.getLast?_cons]

theorem head?_texts_toRun : f.toRun.texts.head? = f.result.texts.head? := by
  obtain ⟨w, ws, hwords⟩ := List.exists_cons_of_ne_nil f.result.words_ne_nil
  simp [toRun, NamedType.toRun, NamedType.texts, hwords, wordsRun, Run.texts]

variable {f}

theorem Plain.head (h : f.Plain) : ∃ first, f.result.words.head? = some first ∧
    first.text ∉ ["typedef", "static", "extern", "operator", "public", "protected", "private"] := by
  obtain ⟨w, ws, hwords⟩ := List.exists_cons_of_ne_nil f.result.words_ne_nil
  exact ⟨w, by rw [hwords]; rfl, h _ (by simp [typeTexts, NamedType.texts, hwords])⟩

/-- The semicolon sees the declaration of a variable, unless it gives the name `operator`. -/
theorem Plain.declaresVariable (h : f.Plain) {c : Context} (hc : c.Declares) (hparens : c.parens = 0)
    (hrun : c.run = f.toRun) (scope : Kind) :
    OpenScope.declaresVariable scope c = !f.names.contains "operator" := by
  obtain ⟨first, hfirst, hkeyword⟩ := h.head
  simp only [List.mem_cons, List.not_mem_nil, or_false, not_or] at hkeyword
  have hhead : f.toRun.texts.head?.any (isLeftOut scope) = false := by
    rw [f.head?_texts_toRun, NamedType.texts, List.head?_map, hfirst]
    simp [isLeftOut, hkeyword]
  have hoperator : f.toRun.texts.contains "operator" = f.names.contains "operator" := by
    have htypes : "operator" ∉ f.typeTexts := fun hm => h _ hm (by decide)
    rw [Bool.eq_iff_iff, List.contains_iff_mem, List.contains_iff_mem,
      f.mem_texts_toRun (by decide)]
    simp [htypes]
  unfold OpenScope.declaresVariable
  dsimp only
  rw [hrun, hhead, hoperator, f.isFunctionPointer_toRun, hc.braces, hparens]
  simp

/-! ## Reading -/

/-- Reading a declaration in any scope records a variable, and leaves nothing of the declaration. One
that gives the name `operator` is dropped. -/
theorem Plain.run_spelled (h : f.Plain) {cs : List Char} (hcs : f.Spelled cs) {t : State}
    {c : Context} (hc : c.Declares) (hrun : c.run = []) (hbase : c.base = []) (hparens : c.parens = 0)
    (rest : List Char) :
    ("operator" ∉ f.names → ∃ s claim, t.scope.Gains (c.variableNode f.toDeclarator) s ∧
      (t.inContext c).run (cs ++ rest) =
        ((t.inScope s).inContext (c.declared [] claim)).run rest) ∧
    ("operator" ∈ f.names → ∃ claim, (t.inContext c).run (cs ++ rest) =
      (t.inContext { c.dropped with claim }).run rest) := by
  obtain ⟨before, hspaced, rfl⟩ := hcs
  obtain ⟨first, hfirst, hkeyword⟩ := h.head
  simp only [List.mem_cons, List.not_mem_nil, or_false, not_or] at hkeyword
  have hstart : c.startRun = c := Context.startRun_of_base hbase
  have hadmits : ∀ p, f.pieces.head? = some p → c.Admits t.scope.node.kind p := by
    intro p hp
    obtain ⟨ws, hwords⟩ := List.head?_eq_some_iff.mp hfirst
    obtain rfl : Piece.ofName first = p := by
      simpa [pieces, NamedType.pieces, hwords] using hp
    refine ⟨fun _ _ => ?_, fun _ => hkeyword.1⟩
    change isAccess (withoutColons first.text) = false
    rw [Name.withoutColons_text]
    simp [isAccess, hkeyword]
  obtain ⟨claim, hread⟩ := State.run_pieces_of_base (t := t) hspaced hc hbase
    (by rw [hrun]; decide) hadmits (hparens ▸ f.depth_pieces) (';' :: rest)
  rw [hrun, f.foldl_pieces] at hread
  let c' : Context := { c with run := f.toRun, claim }
  have hc' : c'.Declares := hc.withRun f.toRun c.parens claim
  have htypedef : c'.run.texts.head? ≠ some "typedef" := by
    change f.toRun.texts.head? ≠ _
    rw [f.head?_texts_toRun, NamedType.texts, List.head?_map, hfirst]
    simpa using hkeyword.1
  have hdeclares := h.declaresVariable hc' hparens rfl t.scope.node.kind
  have hread' : (t.inContext c).run (before ++ [';'] ++ rest) =
      ((t.inContext c').step ';').run rest := by
    rw [List.append_assoc]
    exact hread
  rw [hread']
  constructor
  · intro hoperator
    obtain ⟨s, claim', hgains, hstep⟩ := State.step_semicolon_declares (t := t) hc' htypedef
      (by simp [hdeclares, hoperator]) f.ofRun?_toRun
    refine ⟨s, claim', hgains, ?_⟩
    rw [hstep]
    rfl
  · intro hoperator
    refine ⟨claim, ?_⟩
    rw [State.step_semicolon_dropped hc' htypedef (by simp [hdeclares, hoperator])]
    rfl

/-! ## What is recorded -/

/-- A node that documents a declaration as it was written. -/
structure DocumentedBy (f : FunctionVariable) (n : Node) : Prop where
  kind : n.kind = .var
  name : n.name = some f.declaredName
  typeText : n.typeText = f.result.text
  noInitial : n.attrs.initial = none
  signature : ∀ above, ({ node := n, above } : Located).signature = f.declaration

theorem documentedBy_variableNode (f : FunctionVariable) (c : Context) :
    f.DocumentedBy (c.variableNode f.toDeclarator) := by
  obtain ⟨hkind, hname, htype, hinitial⟩ := c.variableNode_shows f.toDeclarator
  have htype : (c.variableNode f.toDeclarator).typeText = f.result.text :=
    htype.trans (f.result.text_toRun false)
  refine ⟨hkind, hname, htype, hinitial, fun above => ?_⟩
  unfold Located.signature
  rw [hkind]
  change (c.variableNode f.toDeclarator).variableSignature = _
  unfold Node.variableSignature Node.shownName
  rw [htype, hinitial, hname]
  change joinDeclared f.result.text f.declaredName ++ ";" = _
  rw [f.result.joinDeclared_text, declaration]

/-- A declaration with white space around it. -/
theorem Plain.run_surrounded {f : FunctionVariable} (h : f.Plain) {before text after : String}
    (hbefore : IsGap before.toList) (htext : f.Spelled text.toList) (hafter : IsGap after.toList)
    (t : State) :
    ("operator" ∉ f.names → ∃ s claim, t.scope.Gains (Context.variableNode {} f.toDeclarator) s ∧
      (t.inContext {}).run (before ++ text ++ after).toList = (t.inScope s).inContext { claim }) ∧
    ("operator" ∈ f.names → ∃ claim,
      (t.inContext {}).run (before ++ text ++ after).toList = t.inContext { claim }) := by
  have hsplit : (before ++ text ++ after).toList =
      before.toList ++ (text.toList ++ (after.toList ++ [])) := by
    simp
  obtain ⟨claim, hgap⟩ := State.run_gap_inContext (t := t) (c := {}) rfl none hbefore
    (text.toList ++ (after.toList ++ []))
  have hread := h.run_spelled htext (t := t) (c := { claim }) ⟨rfl, rfl, rfl, rfl, rfl, rfl⟩ rfl rfl rfl
    (after.toList ++ [])
  rw [hsplit, show (t.inContext {}).run _ = _ from hgap]
  constructor
  · intro hoperator
    obtain ⟨s, claim', hgains, hrecord⟩ := hread.1 hoperator
    obtain ⟨claim'', hend⟩ := State.run_gap_inContext (t := t.inScope s) (c := {}) rfl claim' hafter []
    exact ⟨s, claim'', hgains, hrecord.trans hend⟩
  · intro hoperator
    obtain ⟨claim', hdrop⟩ := hread.2 hoperator
    obtain ⟨claim'', hend⟩ := State.run_gap_inContext (t := t) (c := {}) rfl claim' hafter []
    exact ⟨claim'', hdrop.trans hend⟩

/-- A pointer to functions is recorded as the variable that is declared, wherever declarations are
recorded, unless the name of the variable or of a parameter is `operator`: then the declaration is
dropped. -/
theorem recorded_unless_operator (f : FunctionVariable) (h : f.Plain) {text : String}
    (htext : f.Spelled text.toList) :
    ("operator" ∉ f.names →
      (∀ before after : String, IsGap before.toList → IsGap after.toList → ∃ n, f.DocumentedBy n ∧
        scan (before ++ text ++ after) .empty = Node.empty.withChildren [n] ∧
        ∀ tag : Name, tag.text.toList.head? ≠ some '_' →
          scan (structText tag (before ++ text ++ after)) .empty =
            Node.empty.withChildren [(structNode tag.text).push n]) ∧
      ∀ (t : State) (c : Context), c.Declares → c.run = [] → c.base = [] → c.parens = 0 →
        ∃ n s claim, f.DocumentedBy n ∧ t.scope.Gains n s ∧
          (t.inContext c).run text.toList = (t.inScope s).inContext (c.declared [] claim)) ∧
    ("operator" ∈ f.names →
      ∀ before after : String, IsGap before.toList → IsGap after.toList →
        scan (before ++ text ++ after) .empty = .empty ∧
        ∀ tag : Name, tag.text.toList.head? ≠ some '_' →
          scan (structText tag (before ++ text ++ after)) .empty =
            Node.empty.withChildren [structNode tag.text]) := by
  let n := Context.variableNode {} f.toDeclarator
  have hdocumented : f.DocumentedBy n := f.documentedBy_variableNode {}
  have hpublic : n.isPrivate = false := (by decide +kernel : Comment.isPrivate "" = false)
  have hrecordable : Node.isRecordable f.declaredName = true := by
    simp [Node.isRecordable, declaredName]
  have hcontext : ∀ tag : Name, OpenScope.begin (structNode tag.text) .record =
      { OpenScope.begin (structNode tag.text) .record with context := {} } := by
    intro tag
    rw [structNode_eq]
    rfl
  constructor
  · intro hoperator
    constructor
    · intro before after hbefore hafter
      have hread := fun t => (h.run_surrounded hbefore htext hafter t).1 hoperator
      refine ⟨n, hdocumented, ?_, fun tag htag => ?_⟩
      · obtain ⟨s, claim, hgains, hrun⟩ := hread (State.start .empty)
        unfold scan scanWithEvents
        rw [show (State.start .empty).run _ = _ from hrun]
        exact hgains.node.trans (record_empty hpublic hdocumented.name hrecordable)
      · refine scan_struct htag fun enclosing => ?_
        obtain ⟨s, claim, hgains, hrun⟩ := hread
          { scope := .begin (structNode tag.text) .record, enclosing }
        refine ⟨{ s with context := { claim } }, ?_, hgains.origin, hgains.attached,
          hgains.suspended rfl, rfl, ?_⟩
        · exact hgains.node.trans (record_structNode _ hpublic hdocumented.name hrecordable)
        · rw [hcontext]
          exact hrun
    · intro t c hc hrun hbase hparens
      obtain ⟨s, claim, hgains, hread⟩ := (h.run_spelled htext (t := t) hc hrun hbase hparens []).1
        hoperator
      rw [List.append_nil] at hread
      exact ⟨_, s, claim, f.documentedBy_variableNode c, hgains, hread⟩
  · intro hoperator before after hbefore hafter
    have hread := fun t => (h.run_surrounded hbefore htext hafter t).2 hoperator
    constructor
    · obtain ⟨claim, hrun⟩ := hread (State.start .empty)
      unfold scan scanWithEvents
      rw [show (State.start .empty).run _ = _ from hrun]
      rfl
    · intro tag htag
      refine scan_struct htag fun enclosing => ?_
      obtain ⟨claim, hrun⟩ := hread { scope := .begin (structNode tag.text) .record, enclosing }
      refine ⟨{ OpenScope.begin (structNode tag.text) .record with context := { claim } }, rfl, rfl, rfl,
        rfl, rfl, ?_⟩
      rw [hcontext]
      exact hrun

/-- A pointer to functions of two parameters, one of them without a name, in a layout of its own. -/
theorem recorded_callback :
    let name (text : String) (h : isName text.toList = true) : Name := ⟨text, h⟩
    let f : FunctionVariable :=
      { result := FunctionPointer.singleType "float" (by decide +kernel)
        name := name "handler" (by decide +kernel)
        parameters := [⟨FunctionPointer.singleType "void" isName_void 1, none⟩,
          ⟨FunctionPointer.singleType "float" (by decide +kernel),
            some (name "width" (by decide +kernel))⟩] }
    let text := "float (* handler)( void *,float width) ;"
    f.Plain ∧ f.Spelled text.toList ∧ "operator" ∉ f.names ∧
      f.declaration = "float (*handler)(void *, float width);" ∧
      ∃ n, f.DocumentedBy n ∧ scan ("\n  " ++ text ++ "\n") .empty = Node.empty.withChildren [n] ∧
        scan (structText (name "Hooks" (by decide +kernel)) ("\n  " ++ text ++ "\n")) .empty =
          Node.empty.withChildren [(structNode "Hooks").push n] := by
  intro name f text
  have hplain : f.Plain := by decide +kernel
  have hspelled : Spaced f.pieces _ :=
    .word (by decide : IsGap [' ']) (by simp) <| .mark (by decide : IsGap []) <|
    .mark (by decide : IsGap [' ']) <|
    .word (by decide : IsGap []) (fun _ => ⟨')', rfl, by decide⟩) <|
    .mark (by decide : IsGap []) <| .mark (by decide : IsGap [' ']) <|
    .word (by decide : IsGap [' ']) (by simp) <| .mark (by decide : IsGap []) <|
    .mark (by decide : IsGap []) <| .word (by decide : IsGap [' ']) (by simp) <|
    .word (by decide : IsGap []) (fun _ => ⟨')', rfl, by decide⟩) <|
    .mark (by decide : IsGap [' ']) .nil
  have htext : f.Spelled text.toList := ⟨_, hspelled, by decide +kernel⟩
  have hoperator : "operator" ∉ f.names := by decide +kernel
  obtain ⟨n, hn, hscan, hstruct⟩ := ((f.recorded_unless_operator hplain htext).1 hoperator).1
    "\n  " "\n" (by decide) (by decide)
  exact ⟨hplain, htext, hoperator, by decide +kernel, n, hn, hscan,
    hstruct (name "Hooks" (by decide +kernel)) (by decide +kernel)⟩

/-- The name `operator` alone drops a declaration. -/
theorem not_recorded_operator :
    let f : FunctionVariable :=
      { result := FunctionPointer.singleType "float" (by decide +kernel)
        name := ⟨"operator", by decide +kernel⟩ }
    let text := "float (*operator)(void);"
    f.Plain ∧ f.Spelled text.toList ∧ (scan text .empty).children.isEmpty = true ∧
      ¬ ∃ n, f.DocumentedBy n ∧ scan text .empty = Node.empty.withChildren [n] := by
  intro f text
  have hspelled : Spaced f.pieces _ :=
    .word (by decide : IsGap [' ']) (by simp) <| .mark (by decide : IsGap []) <|
    .mark (by decide : IsGap []) <|
    .word (by decide : IsGap []) (fun _ => ⟨')', rfl, by decide⟩) <|
    .mark (by decide : IsGap []) <| .mark (by decide : IsGap []) <|
    .word (by decide : IsGap []) (fun _ => ⟨')', rfl, by decide⟩) <|
    .mark (by decide : IsGap []) .nil
  have hempty : (scan text .empty).children.isEmpty = true := by decide +kernel
  refine ⟨by decide +kernel, ⟨_, hspelled, by decide +kernel⟩, hempty, ?_⟩
  rintro ⟨n, -, hn⟩
  rw [hn] at hempty
  cases hempty

end FunctionVariable

end HeaderDocs.Scan
