import HeaderDocs.Proofs.Scan.Aliases
import HeaderDocs.Proofs.Scan.NamedTypes

/-!
# Pointers to functions

`typedef R (*T)(params);` gives a name to a type, and the name stands in the middle of it. The
semicolon finds the name by the first parenthesis; a word directly before a comma is taken for the
name whatever stands around it.

* `FunctionPointer.recordedIn_scan`: the name is recorded with the type around it if every parameter
  but the last one ends in a star, and otherwise it is not.
-/
namespace HeaderDocs.Scan

open HeaderDocs.Text

/-! ## Declarations -/

structure TypedParameter where
  type : NamedType
  name : Option Name := none

structure FunctionPointer where
  result : NamedType
  name : Name
  parameters : List TypedParameter
  parameters_ne_nil : parameters ≠ []

namespace TypedParameter

def text (p : TypedParameter) : String :=
  match p.name with
  | some name => String.intercalate " " p.type.texts ++ " " ++ starText p.type.stars ++ name.text
  | none => p.type.text

def endsInStar (p : TypedParameter) : Bool := p.name.isNone && p.type.stars != 0

end TypedParameter

namespace FunctionPointer

variable (f : FunctionPointer)

/-- What separates the type that is returned from the parenthesis behind it. -/
def gap : String := if f.result.stars = 0 then " " else ""

def parameterText : String := String.intercalate ", " (f.parameters.map (·.text))

def typeText : String := f.result.text ++ f.gap ++ "(*)(" ++ f.parameterText ++ ")"

def declaration : String :=
  "typedef " ++ f.result.text ++ f.gap ++ "(*" ++ f.name.text ++ ")(" ++ f.parameterText ++ ");"

/-- The declaration as it is read. The first parenthesis may stand apart from a star before it. -/
def source (apart : Bool) : String :=
  "typedef " ++ f.result.text ++ (if apart then " " else f.gap) ++ "(*" ++ f.name.text ++ ")(" ++
    f.parameterText ++ ");"

/-- The name is all that the tree documents. -/
def RecordedIn (tree : Node) : Prop :=
  tree.kind = .root ∧ ∃ n, tree.children = [n] ∧ n.kind = .typeAlias ∧ n.name = some f.name.text ∧
    n.typeText = f.typeText ∧
    ({ node := n, above := [tree] } : Located).signature = f.declaration

end FunctionPointer

/-! ## Parameters -/

variable {s : OpenScope} {parens : Nat} {run : Run} {claim : Option (List Claim)}

namespace TypedParameter

variable {p : TypedParameter}

def toRun (spaced : Bool) (p : TypedParameter) : Run :=
  p.type.toRun spaced ++ (p.name.toList.map fun name => ⟨name.text, p.type.stars == 0⟩)

theorem tailText_toRun (spaced : Bool) (p : TypedParameter) :
    Run.tailText (p.toRun spaced) = spaceIf spaced ++ p.text := by
  rw [toRun, Run.tailText_append, p.type.tailText_toRun spaced]
  unfold text
  cases p.name with
  | none => simp
  | some name =>
    unfold NamedType.text
    by_cases hzero : p.type.stars = 0
    · simp [hzero, Run.tailText_cons, starText, String.append_assoc]
    · simp [hzero, Run.tailText_cons, String.append_assoc]

theorem toRun_ne_nil (spaced : Bool) (p : TypedParameter) : p.toRun spaced ≠ [] :=
  List.append_ne_nil_of_left_ne_nil (p.type.toRun_ne_nil spaced) _

/-- The parameter is names and stars with a word behind them. -/
structure EndsIn (p : TypedParameter) (ws : List Name) (n : Nat) (w : Name) : Prop where
  names : n ≠ 0 → ws ≠ []
  text : p.text.toList = spacedOut ws ++ (List.replicate n '*' ++ w.text.toList)
  run : ∀ {run : Run} {spaced : Bool}, run.Awaits spaced →
    (run ++ (wordsRun spaced ws ++ starRun n)).pushWord w.text = run ++ p.toRun spaced

theorem exists_endsIn (h : p.endsInStar = false) : ∃ ws n w, p.EndsIn ws n w := by
  cases hname : p.name with
  | some name =>
    refine ⟨p.type.words, p.type.stars, name, fun _ => p.type.words_ne_nil, ?_, ?_⟩
    · simp [TypedParameter.text, hname, NamedType.texts, toList_spacedOut p.type.words_ne_nil,
        toList_starText]
    · intro run spaced hrun
      by_cases hzero : p.type.stars = 0
      · rw [hzero, starRun, List.append_nil,
          (endsInName_wordsRun p.type.words_ne_nil run spaced).pushWord]
        simp [TypedParameter.toRun, NamedType.toRun, hname, hzero, starRun]
      · rw [← List.append_assoc, awaits_stars _ hzero]
        simp [TypedParameter.toRun, NamedType.toRun, hname, hzero]
  | none =>
    have hzero : p.type.stars = 0 := by simpa [endsInStar, hname] using h
    obtain ⟨ws, w, hwords⟩ : ∃ ws w, p.type.words = ws ++ [w] :=
      ⟨_, _, (List.dropLast_append_getLast p.type.words_ne_nil).symm⟩
    refine ⟨ws, 0, w, fun hne => absurd rfl hne, ?_, ?_⟩
    · rw [TypedParameter.text, hname]
      simp only [NamedType.text, hzero, if_true, String.append_empty, NamedType.texts, hwords]
      simpa using spacedOut_concat ws w
    · intro run spaced hrun
      have hfragments : p.toRun spaced = wordsRun spaced (ws ++ [w]) := by
        simp [TypedParameter.toRun, NamedType.toRun, hname, hzero, hwords, starRun]
      rw [hfragments, starRun, List.append_nil]
      cases ws with
      | nil => simpa [wordsRun] using hrun w.text
      | cons first ws =>
        rw [(endsInName_wordsRun (List.cons_ne_nil _ _) run spaced).pushWord]
        simp [wordsRun]

variable {spaced : Bool}

theorem run_starred (hroot : s.node.kind = .root) (h : p.endsInStar = true)
    (hrun : run.Awaits spaced) (rest : List Char) :
    (State.reading s { parens, run, claim }).run (p.text.toList ++ rest) =
      (State.reading s { parens, run := run ++ p.toRun spaced, claim }).run rest := by
  simp only [endsInStar, Bool.and_eq_true, Option.isNone_iff_eq_none, bne_iff_ne] at h
  have htext : p.text.toList = spacedOut p.type.words ++ List.replicate p.type.stars '*' := by
    simp [TypedParameter.text, h, NamedType.text, NamedType.texts,
      toList_spacedOut p.type.words_ne_nil, toList_starText]
  have hfragments : p.toRun spaced = wordsRun spaced p.type.words ++ starRun p.type.stars := by
    simp [TypedParameter.toRun, NamedType.toRun, h.1]
  rw [htext, hfragments, List.append_assoc]
  exact run_leading hroot hrun (fun _ => p.type.words_ne_nil) rest

theorem run_last (hroot : s.node.kind = .root) (hrun : run.Awaits spaced) (rest : List Char) :
    (State.reading s { parens := parens + 1, run, claim }).run (p.text.toList ++ ')' :: rest) =
      (State.reading s { parens, run := run ++ p.toRun spaced ++ [⟨")", false⟩], claim }).run
        rest := by
  have hne : run ++ p.toRun spaced ≠ [] :=
    List.append_ne_nil_of_right_ne_nil _ (p.toRun_ne_nil spaced)
  rw [← run_closeParen hne]
  cases hstar : p.endsInStar with
  | true => exact run_starred hroot hstar hrun (')' :: rest)
  | false =>
    obtain ⟨ws, n, w, hends⟩ := exists_endsIn hstar
    have hpart : State.isWordPart (parens + 1) ')' = false := by simp [State.isWordPart]; decide
    rw [hends.text, List.append_assoc, List.append_assoc, run_leading hroot hrun hends.names,
      run_collected hroot w hpart (fun hd => absurd hd (by decide : ')' ≠ '('))
        (fun hd => absurd hd (by decide : ')' ∉ [',', ';'])), hends.run hrun]

end TypedParameter

/-- Parameters of which all but the last one end in a star are collected. -/
theorem run_parameters (hroot : s.node.kind = .root) {spaced : Bool} (hrun : run.Awaits spaced)
    (p : TypedParameter) (ps : List TypedParameter)
    (h : ∀ q ∈ (p :: ps).dropLast, q.endsInStar = true) (rest : List Char) :
    ∃ fragments : Run,
      fragments.tailText = spaceIf spaced ++ String.intercalate ", " ((p :: ps).map (·.text)) ∧
      (State.reading s { parens := parens + 1, run, claim }).run
          ((String.intercalate ", " ((p :: ps).map (·.text))).toList ++ ')' :: rest) =
        (State.reading s { parens, run := run ++ fragments ++ [⟨")", false⟩], claim }).run
          rest := by
  induction ps generalizing run spaced p with
  | nil =>
    refine ⟨p.toRun spaced, by simpa using p.tailText_toRun spaced, ?_⟩
    simpa using p.run_last hroot hrun rest
  | cons q ps ih =>
    have hp : p.endsInStar = true := h p (by simp)
    obtain ⟨fragments, htext, hread⟩ := ih (awaits_comma (run ++ p.toRun spaced) false) q
      fun r hr => h r (List.mem_cons_of_mem _ hr)
    refine ⟨p.toRun spaced ++ [⟨",", false⟩] ++ fragments, ?_, ?_⟩
    · rw [Run.tailText_append, htext, Run.tailText_append, p.tailText_toRun]
      simp only [List.map_cons, String.intercalate_cons_cons, spaceIf, Run.tailText_cons,
        String.append_assoc]
      simp [← String.append_assoc]
    · have hne : run ++ p.toRun spaced ≠ [] :=
        List.append_ne_nil_of_right_ne_nil _ (p.toRun_ne_nil spaced)
      have htext : (String.intercalate ", " ((p :: q :: ps).map (·.text))).toList ++ ')' :: rest =
          p.text.toList ++ ',' :: ' ' ::
            ((String.intercalate ", " ((q :: ps).map (·.text))).toList ++ ')' :: rest) := by
        simp [String.intercalate_cons_cons]
      rw [htext, p.run_starred hroot hp hrun, run_comma hne, run_space, hread]
      simp

/-! ## What is recorded -/

theorem breakOn?_pointer {before : List Char} (h : '(' ∉ before) (after : List Char) :
    breakOn? ['(', '*', ')'] (before ++ '(' :: '*' :: ')' :: after) = some (before, after) := by
  induction before with
  | nil => simp [breakOn?, List.isPrefixOf?]
  | cons c before ih =>
    have hc : ¬ '(' = c := fun he => h (he ▸ List.mem_cons_self)
    have hrest := ih fun hm => h (List.mem_cons_of_mem _ hm)
    simp [breakOn?, List.isPrefixOf?, hc, hrest]

namespace FunctionPointer

variable (f : FunctionPointer)

def openingRun : Run :=
  ⟨"typedef", false⟩ :: (f.result.toRun true ++
    [⟨"(", f.result.stars == 0⟩, ⟨"*", false⟩, ⟨f.name.text, false⟩])

/-- The type that is returned, with what separates it from the parenthesis. -/
theorem run_result (hroot : s.node.kind = .root) {spaced : Bool} (hrun : run.Awaits spaced)
    (apart : Bool) (rest : List Char) :
    (State.reading s { parens, run, claim }).run
        (f.result.text.toList ++ ((if apart then " " else f.gap).toList ++ rest)) =
      (State.reading s { parens, run := run ++ f.result.toRun spaced, claim }).run rest := by
  by_cases hspace : (if apart then " " else f.gap) = " "
  · rw [hspace]
    exact f.result.run_apart hroot hrun rest
  · have hgap : apart = false ∧ f.result.stars ≠ 0 := by
      cases apart with
      | true => exact absurd rfl hspace
      | false => exact ⟨rfl, fun hzero => hspace (by simp [gap, hzero])⟩
    have hstar := @TypedParameter.run_starred s parens run claim ⟨f.result, none⟩ spaced hroot
      (by simp [TypedParameter.endsInStar, hgap.2]) hrun rest
    simpa [hgap, gap, TypedParameter.text, TypedParameter.toRun] using hstar

theorem run_opening (hroot : s.node.kind = .root) (apart : Bool) (rest : List Char) :
    (State.reading s {}).run
        (("typedef " ++ f.result.text ++ (if apart then " " else f.gap) ++ "(*" ++ f.name.text ++
          ")(").toList ++ rest) =
      (State.reading s { parens := 1, run := f.openingRun ++ [⟨")", false⟩, ⟨"(", false⟩] }).run
        rest := by
  let typedef : Name := ⟨"typedef", by decide +kernel⟩
  have htext : ("typedef " ++ f.result.text ++ (if apart then " " else f.gap) ++ "(*" ++
        f.name.text ++ ")(").toList ++ rest =
      typedef.text.toList ++ ' ' :: (f.result.text.toList ++
        ((if apart then " " else f.gap).toList ++
          ('(' :: '*' :: (f.name.text.toList ++ ')' :: '(' :: rest)))) := by
    simp [typedef]
  have hkeyword : Run.pushWord [] typedef.text = [⟨"typedef", false⟩] := rfl
  have hawaits : Run.Awaits [⟨"typedef", false⟩] true :=
    (Run.endsInName_concat [] typedef false).awaits
  have hpart : State.isWordPart 1 ')' = false := by decide
  have hstar : ∀ run : Run, Run.pushMark (run ++ [⟨"(", f.result.stars == 0⟩]) "*" =
      run ++ [⟨"(", f.result.stars == 0⟩] ++ [⟨"*", false⟩] := by
    intro run
    have hopen : Fragment.endsWord ⟨"(", f.result.stars == 0⟩ = false := by
      simp [Fragment.endsWord]
      decide
    simp [Run.pushMark, Run.push, hopen]
  have hclose : ∀ run : Run, Run.pushMark (run ++ [⟨")", false⟩]) "(" =
      run ++ [⟨")", false⟩] ++ [⟨"(", false⟩] := by
    intro run
    have hend : Fragment.endsWord ⟨")", false⟩ = false := by decide
    simp [Run.pushMark, Run.push, hend]
  rw [htext, run_spaced hroot, hkeyword, f.run_result hroot hawaits, run_openParen (by simp),
    f.result.pushMark_toRun, run_star (by simp), hstar,
    run_collected hroot f.name hpart (fun hd => absurd hd (by decide : ')' ≠ '('))
      (fun hd => absurd hd (by decide : ')' ∉ [',', ';'])),
    awaits_star, run_closeParen (by simp), run_openParen (by simp), hclose]
  simp [openingRun]

/-- The type as fragments, for those of the parameters. -/
def typeRun (fragments : Run) : Run :=
  f.result.toRun true ++ [⟨"(", f.result.stars == 0⟩, ⟨"*", false⟩] ++
    ([⟨")", false⟩, ⟨"(", false⟩] ++ fragments ++ [⟨")", false⟩])

theorem text_typeRun {fragments : Run} (h : fragments.tailText = f.parameterText) :
    Run.text (f.typeRun fragments) = f.typeText := by
  rw [typeRun, List.append_assoc, Run.text_append (f.result.toRun_ne_nil true),
    f.result.text_toRun true]
  simp only [List.cons_append, List.nil_append, Run.tailText_cons, Run.tailText_append, h,
    Run.tailText_nil, typeText, gap]
  refine String.toList_inj.mp ?_
  by_cases hzero : f.result.stars = 0 <;> simp [hzero]

theorem recordedIn_typeRun {fragments : Run} (h : fragments.tailText = f.parameterText) :
    f.RecordedIn (Node.empty.withChildren [aliasNode f.name.text (f.typeRun fragments)]) := by
  have htype : (aliasNode f.name.text (f.typeRun fragments)).typeText = f.typeText :=
    (typeText_aliasNode ..).trans (f.text_typeRun h)
  have hbefore : '(' ∉ (f.result.text ++ f.gap).toList := by
    have hgap : '(' ∉ f.gap.toList := by
      unfold gap
      split <;> decide
    rw [String.toList_append, List.mem_append, not_or]
    exact ⟨f.result.notMem_text (by decide) (by decide), hgap⟩
  have hbreak : breakOn? ['(', '*', ')'] f.typeText.toList =
      some ((f.result.text ++ f.gap).toList, ("(" ++ f.parameterText ++ ")").toList) := by
    have htext : f.typeText.toList = (f.result.text ++ f.gap).toList ++ '(' :: '*' :: ')' ::
        ("(" ++ f.parameterText ++ ")").toList := by
      simp [typeText]
    rw [htext, breakOn?_pointer hbefore]
  refine ⟨rfl, _, rfl, rfl, rfl, htype, ?_⟩
  change (aliasNode f.name.text (f.typeRun fragments)).aliasSignature = _
  unfold Node.aliasSignature
  rw [htype]
  dsimp only
  rw [hbreak]
  have hname : (aliasNode f.name.text (f.typeRun fragments)).shownName = f.name.text := rfl
  refine String.toList_inj.mp ?_
  simp [declaration, hname]

end FunctionPointer

/-! ## What is lost behind a comma -/

/-- Fragments that neither name a type nor have a value or a parenthesis opened. -/
structure Run.Idle (run : Run) : Prop where
  ne_nil : run ≠ []
  head : run.texts.head? ≠ some "typedef"
  opens : "(" ∉ run.texts
  equals : "=" ∉ run.texts

theorem Run.Idle.push (h : run.Idle) {f : Fragment} (hopens : "(" ≠ f.text)
    (hequals : "=" ≠ f.text) : Run.Idle (run ++ [f]) := by
  obtain ⟨first, fs, rfl⟩ := List.exists_cons_of_ne_nil h.ne_nil
  have happend : ∀ text, text ∉ Run.texts (first :: fs) → text ≠ f.text →
      text ∉ Run.texts (first :: fs ++ [f]) := by
    intro text hm hf
    rw [Run.texts, List.map_append, List.mem_append, not_or]
    exact ⟨hm, by simpa using hf⟩
  exact ⟨by simp, h.head, happend _ h.opens hopens, happend _ h.equals hequals⟩

/-- What stands between the words of parameters. -/
def isParameterMark (c : Char) : Bool := c == ' ' || c == ',' || c == '*'

def isParameterChar (c : Char) : Bool := isWordChar c || isParameterMark c

theorem isWordPart_one {c : Char} (hc : (isParameterMark c || c == ')') = true) :
    State.isWordPart 1 c = false ∧ c ≠ '(' := by
  simp only [isParameterMark, Bool.or_eq_true, beq_iff_eq] at hc
  rcases hc with ((rfl | rfl) | rfl) | rfl <;> decide

theorem mark_ne_ofList {word : List Char} (hword : ∀ c ∈ word, isWordChar c = true) (mark : Char)
    (hmark : isWordChar mark = false) : String.ofList [mark] ≠ String.ofList word.reverse := by
  intro he
  have hm : mark ∈ word := by
    have hlist := congrArg String.toList he
    rw [String.toList_ofList, String.toList_ofList] at hlist
    exact List.mem_reverse.mp (hlist ▸ List.mem_singleton_self mark)
  rw [hword mark hm] at hmark
  cases hmark

theorem run_idleWord (hroot : s.node.kind = .root) (h : run.Idle) {word : List Char} {d : Char}
    (hd : (isParameterMark d || d == ')') = true) (rest : List Char) :
    ((State.reading s { parens := 1, run, claim }).enter (.word word)).run (d :: rest) =
      (State.reading s
        { parens := 1, run := run.pushWord (String.ofList word.reverse), claim }).run
          (d :: rest) := by
  obtain ⟨hpart, hopen⟩ := isWordPart_one hd
  have hword : (State.reading s { parens := 1, run, claim }).update
      (·.word (String.ofList word.reverse) d) = State.reading s
        { parens := 1, run := run.pushWord (String.ofList word.reverse), claim } :=
    congrArg (fun scope => ({ scope } : State)) (word_collected hroot (fun he => absurd he hopen)
      (fun _ => .inr ⟨h.head, Nat.one_ne_zero⟩) _)
  change (if State.isWordPart 1 d then _ else _ : State).run rest = _
  rw [if_neg (Bool.eq_false_iff.mp hpart)]
  change (((State.reading s { parens := 1, run, claim }).update
    (·.word (String.ofList word.reverse) d)).plain d).run rest = _
  rw [hword]
  rfl

/-- Nothing comes of the parameters behind the comma, in a word or not. -/
theorem run_idle (hroot : s.node.kind = .root) (h : run.Idle) {cs : List Char}
    (hcs : ∀ c ∈ cs, isParameterChar c = true) :
    (State.reading s { parens := 1, run, claim }).run (cs ++ [')', ';']) =
        State.reading s { claim } ∧
      ∀ word : List Char, (∀ c ∈ word, isWordChar c = true) →
        ((State.reading s { parens := 1, run, claim }).enter (.word word)).run (cs ++ [')', ';']) =
          State.reading s { claim } := by
  induction cs generalizing run with
  | nil =>
    have hplain : ∀ run : Run, run.Idle →
        (State.reading s { parens := 1, run, claim }).run [')', ';'] =
          State.reading s { claim } := by
      intro run h
      have hend := h.push (f := ⟨")", false⟩) (by decide) (by decide)
      rw [run_closeParen h.ne_nil]
      exact step_semicolon_idle hroot hend.head
        (OpenScope.declaresVariable_of_notMem hend.equals hend.opens)
    refine ⟨hplain run h, fun word hword => ?_⟩
    rw [List.nil_append, run_idleWord hroot h (by decide)]
    exact hplain _ (h.push (mark_ne_ofList hword '(' (by decide))
      (mark_ne_ofList hword '=' (by decide)))
  | cons c cs ih =>
    have ih := fun {run : Run} (h : run.Idle) => ih h fun d hd => hcs d (List.mem_cons_of_mem _ hd)
    have hplain : ∀ run : Run, run.Idle →
        (State.reading s { parens := 1, run, claim }).run (c :: (cs ++ [')', ';'])) =
          State.reading s { claim } := by
      intro run h
      rcases Bool.or_eq_true_iff.mp (hcs c List.mem_cons_self) with hc | hc
      · change ((State.reading s _).step c).run _ = _
        rw [State.step_wordStart rfl hc]
        exact (ih h).2 [c] (by simpa using hc)
      · simp only [isParameterMark, Bool.or_eq_true, beq_iff_eq] at hc
        rcases hc with (rfl | rfl) | rfl
        · rw [run_space]
          exact (ih h).1
        · rw [run_comma h.ne_nil]
          exact (ih (h.push (by decide) (by decide))).1
        · rw [run_star h.ne_nil]
          exact (ih (h.push (by decide : "(" ≠ "*") (by decide : "=" ≠ "*"))).1
    refine ⟨hplain run h, fun word hword => ?_⟩
    rcases Bool.or_eq_true_iff.mp (hcs c List.mem_cons_self) with hc | hc
    · have hstep : ((State.reading s { parens := 1, run, claim }).enter (.word word)).step c =
          (State.reading s { parens := 1, run, claim }).enter (.word (c :: word)) :=
        if_pos (isWordPart_of_isWordChar hc 1).2
      change (((State.reading s _).enter _).step c).run _ = _
      rw [hstep]
      exact (ih h).2 (c :: word) (by simpa [hc] using hword)
    · rw [List.cons_append, run_idleWord hroot h (by rw [hc, Bool.true_or])]
      exact hplain _ (h.push (mark_ne_ofList hword '(' (by decide))
        (mark_ne_ofList hword '=' (by decide)))

theorem toList_intercalate_names (w : Name) (ws : List Name) :
    (String.intercalate " " ((w :: ws).map (·.text))).toList =
      w.text.toList ++ ws.flatMap fun v => ' ' :: v.text.toList := by
  induction ws generalizing w with
  | nil => simp
  | cons v ws ih =>
    have hrest := ih v
    rw [List.map_cons] at hrest
    rw [List.map_cons, List.map_cons, String.intercalate_cons_cons, String.toList_append, hrest]
    simp

theorem isParameterChar_name (w : Name) : ∀ c ∈ w.text.toList, isParameterChar c = true := by
  intro c hc
  rw [isParameterChar, w.chars.2 c hc, Bool.true_or]

theorem TypedParameter.exists_first (p : TypedParameter) :
    ∃ (w : Name) (cs : List Char), p.type.texts.head? = some w.text ∧
      p.text.toList = w.text.toList ++ cs ∧ (∀ c ∈ cs, isParameterChar c = true) ∧
      ∀ c ∈ cs.head?, c = ' ' := by
  obtain ⟨w, ws, hwords⟩ := List.exists_cons_of_ne_nil p.type.words_ne_nil
  let after : List Char := match p.name with
    | some name => ' ' :: (List.replicate p.type.stars '*' ++ name.text.toList)
    | none => if p.type.stars = 0 then [] else ' ' :: List.replicate p.type.stars '*'
  have hafter : (∀ c ∈ after, isParameterChar c = true) ∧ ∀ c ∈ after.head?, c = ' ' := by
    have hstars : ∀ c ∈ List.replicate p.type.stars '*', isParameterChar c = true := by
      intro c hc
      rw [List.eq_of_mem_replicate hc]
      decide +kernel
    unfold after
    split
    · rename_i name _
      refine ⟨List.forall_mem_cons.mpr ⟨by decide +kernel, fun c hc => ?_⟩, by simp⟩
      rcases List.mem_append.mp hc with hc | hc
      · exact hstars c hc
      · exact isParameterChar_name name c hc
    · split
      · simp
      · exact ⟨List.forall_mem_cons.mpr ⟨by decide +kernel, hstars⟩, by simp⟩
  refine ⟨w, (ws.flatMap fun v => ' ' :: v.text.toList) ++ after, ?_, ?_, ?_, ?_⟩
  · rw [NamedType.texts, hwords]
    rfl
  · have hnames : (String.intercalate " " p.type.texts).toList =
        w.text.toList ++ ws.flatMap fun v => ' ' :: v.text.toList := by
      rw [NamedType.texts, hwords, toList_intercalate_names]
    unfold text after
    cases p.name with
    | some name => simp only [String.toList_append, hnames, toList_starText]; simp
    | none =>
      rw [NamedType.text, String.toList_append, hnames]
      split <;> simp [toList_starText, *]
  · intro c hc
    rcases List.mem_append.mp hc with hc | hc
    · obtain ⟨v, -, hv⟩ := List.mem_flatMap.mp hc
      rcases List.mem_cons.mp hv with rfl | hv
      · decide +kernel
      · exact isParameterChar_name v c hv
    · exact hafter.1 c hc
  · cases ws with
    | nil => exact hafter.2
    | cons v ws => simp

theorem exists_first_parameter (p : TypedParameter) (ps : List TypedParameter) :
    ∃ (w : Name) (cs : List Char), p.type.texts.head? = some w.text ∧
      (String.intercalate ", " ((p :: ps).map (·.text))).toList = w.text.toList ++ cs ∧
      (∀ c ∈ cs, isParameterChar c = true) ∧ ∀ c ∈ cs.head?, c = ' ' ∨ c = ',' := by
  induction ps generalizing p with
  | nil =>
    obtain ⟨w, cs, hw, htext, hcs, hhead⟩ := p.exists_first
    exact ⟨w, cs, hw, by simpa using htext, hcs, fun c hc => .inl (hhead c hc)⟩
  | cons q ps ih =>
    obtain ⟨w, cs, hw, htext, hcs, hhead⟩ := p.exists_first
    obtain ⟨v, ds, -, hrest, hds, -⟩ := ih q
    refine ⟨w, cs ++ ',' :: ' ' :: (v.text.toList ++ ds), hw, ?_, ?_, ?_⟩
    · rw [List.map_cons] at hrest
      rw [List.map_cons, List.map_cons, String.intercalate_cons_cons, String.toList_append, hrest]
      simp [htext]
    · intro c hc
      simp only [List.mem_append, List.mem_cons] at hc
      rcases hc with hc | rfl | rfl | hc | hc
      · exact hcs c hc
      · decide +kernel
      · decide +kernel
      · exact isParameterChar_name v c hc
      · exact hds c hc
    · cases cs with
      | nil => simp
      | cons d cs => exact fun c hc => .inl (hhead c hc)

/-- Parameters behind a comma that ended a name for a type. -/
theorem run_lost (hroot : s.node.kind = .root) (p : TypedParameter) (ps : List TypedParameter)
    (hfirst : p.type.texts.head? ≠ some "typedef") :
    (State.reading s { parens := 1, claim }).run
        ((String.intercalate ", " ((p :: ps).map (·.text))).toList ++ [')', ';']) =
      State.reading s { claim } := by
  obtain ⟨w, cs, hw, htext, hcs, hhead⟩ := exists_first_parameter p ps
  obtain ⟨d, ds, hds, hend⟩ : ∃ d ds, cs ++ [')', ';'] = d :: ds ∧
      (isParameterMark d || d == ')') = true := by
    cases cs with
    | nil => exact ⟨')', [';'], rfl, by decide⟩
    | cons d cs =>
      refine ⟨d, cs ++ [')', ';'], rfl, ?_⟩
      rcases hhead d rfl with rfl | rfl <;> decide
  obtain ⟨hpart, hopen⟩ := isWordPart_one hend
  have hne : w.text ≠ "typedef" := fun he => hfirst (he ▸ hw)
  have hidle : Run.Idle [⟨w.text, false⟩] :=
    ⟨List.cons_ne_nil _ _, by simpa [Run.texts] using hne,
      by simpa [Run.texts] using (w.text_ne (by decide : _ = true)).symm,
      by simpa [Run.texts] using (w.text_ne (by decide : _ = true)).symm⟩
  rw [htext, List.append_assoc, hds, run_collected hroot w hpart (fun he => absurd he hopen)
    (fun _ => .inl rfl), ← hds]
  exact (run_idle hroot hidle hcs).1

theorem getLast?_text_concat (run : Run) {f : Fragment} (hf : f.text.toList ≠ []) :
    (Run.text (run ++ [f])).toList.getLast? = f.text.toList.getLast? := by
  cases run with
  | nil => simp [Run.text_cons]
  | cons g run =>
    rw [Run.text_append (List.cons_ne_nil _ _), Run.tailText_cons]
    simp [List.getLast?_eq_some_getLast hf]

/-- Behind a mark, names and stars do not end in a closing parenthesis. -/
theorem getLast?_text_leading {mark : Fragment} (hmark : mark.text = "(" ∨ mark.text = ",")
    (before : Run) (spaced : Bool) (ws : List Name) (n : Nat) :
    (Run.text (before ++ [mark] ++ (wordsRun spaced ws ++ starRun n))).toList.getLast? ≠
      some ')' := by
  have hconcat : ∀ (run : Run) (f : Fragment), ')' ∉ f.text.toList → f.text.toList ≠ [] →
      (Run.text (run ++ [f])).toList.getLast? ≠ some ')' := by
    intro run f hclose hne he
    rw [getLast?_text_concat run hne] at he
    exact hclose (List.mem_of_getLast? he)
  rw [← List.append_assoc]
  by_cases hzero : n = 0
  · rw [hzero, starRun, List.append_nil]
    by_cases hws : ws = []
    · rw [hws, wordsRun, List.append_nil]
      rcases hmark with hmark | hmark <;>
        exact hconcat _ _ (by rw [hmark]; decide) (by rw [hmark]; decide)
    · obtain ⟨run, w, apart, he⟩ := endsInName_wordsRun hws (before ++ [mark]) spaced
      rw [he]
      exact hconcat _ _ (w.notMem (by decide)) w.chars.1
  · obtain ⟨run, apart, he⟩ := exists_starRun (before ++ [mark] ++ wordsRun spaced ws) hzero
    rw [he]
    exact hconcat _ _ (by decide : ')' ∉ "*".toList) (by decide : "*".toList ≠ [])

/-- A parameter before the last one that does not end in a star is taken for the name, with the type
up to there. -/
theorem run_unstarred (hroot : s.node.kind = .root) {before : Run} {mark : Fragment}
    (hmark : mark.text = "(" ∨ mark.text = ",") (p : TypedParameter) (ps : List TypedParameter)
    (h : ∃ q ∈ (p :: ps).dropLast, q.endsInStar = false)
    (hfirst : ∀ q ∈ ps, q.type.texts.head? ≠ some "typedef") :
    ∃ (s' : OpenScope) (claim' : Option (List Claim)) (name : String) (type : Run),
      s'.node = record s.node (aliasNode name type) ∧
      (Run.text type).toList.getLast? ≠ some ')' ∧
      (State.reading s { parens := 1, run := ⟨"typedef", false⟩ :: (before ++ [mark]), claim }).run
          ((String.intercalate ", " ((p :: ps).map (·.text))).toList ++ [')', ';']) =
        State.reading s' { claim := claim' } := by
  induction ps generalizing before mark p with
  | nil =>
    obtain ⟨q, hq, -⟩ := h
    exact absurd hq List.not_mem_nil
  | cons q ps ih =>
    have htext : (String.intercalate ", " ((p :: q :: ps).map (·.text))).toList ++ [')', ';'] =
        p.text.toList ++ ',' :: ' ' ::
          ((String.intercalate ", " ((q :: ps).map (·.text))).toList ++ [')', ';']) := by
      simp [String.intercalate_cons_cons]
    obtain ⟨spaced, hawaits⟩ :
        ∃ spaced, Run.Awaits (⟨"typedef", false⟩ :: (before ++ [mark])) spaced := by
      obtain ⟨text, apart⟩ := mark
      rcases hmark with rfl | rfl
      · exact ⟨false, awaits_openParen (⟨"typedef", false⟩ :: before) apart⟩
      · exact ⟨true, awaits_comma (⟨"typedef", false⟩ :: before) apart⟩
    rw [htext]
    cases hstar : p.endsInStar with
    | true =>
      have hrest : ∃ r ∈ (q :: ps).dropLast, r.endsInStar = false := by
        obtain ⟨r, hr, hrstar⟩ := h
        rcases List.mem_cons.mp hr with rfl | hr
        · rw [hstar] at hrstar
          cases hrstar
        · exact ⟨r, hr, hrstar⟩
      obtain ⟨s', claim', name, type, hnode, hlast, hread⟩ :=
        @ih (before ++ [mark] ++ p.toRun spaced) ⟨",", false⟩ (.inr rfl) q hrest
        fun r hr => hfirst r (List.mem_cons_of_mem _ hr)
      refine ⟨s', claim', name, type, hnode, hlast, ?_⟩
      rw [p.run_starred hroot hstar hawaits, run_comma (by simp), run_space, ← hread]
      simp
    | false =>
      obtain ⟨ws, n, w, hends⟩ := p.exists_endsIn hstar
      have hpart : State.isWordPart 1 ',' = false := by decide
      obtain ⟨s', hnode, claim', hword⟩ := @word_alias s 1
        (⟨"typedef", false⟩ :: (before ++ [mark]) ++ (wordsRun spaced ws ++ starRun n)) claim
        hroot rfl ',' (by decide) w.text
      refine ⟨s', claim', w.text, _, hnode, ?_, ?_⟩
      · exact getLast?_text_leading hmark before spaced ws n
      · have hupdate : (State.reading s
            { parens := 1
              run := ⟨"typedef", false⟩ :: (before ++ [mark]) ++ (wordsRun spaced ws ++ starRun n)
              claim }).update (·.word w.text ',') =
            State.reading s' { parens := 1, claim := claim' } :=
          congrArg (fun scope => ({ scope } : State)) hword
        have hkind : s'.node.kind = .root := by rw [hnode, kind_record, hroot]
        rw [hends.text, List.append_assoc, List.append_assoc, run_leading hroot hawaits hends.names,
          State.run_name rfl w hpart, hupdate]
        change (State.reading s' { parens := 1, claim := claim' }).run (',' :: ' ' :: _) = _
        rw [run_comma_nothing, run_space, run_lost hkind q ps (hfirst q List.mem_cons_self)]

namespace FunctionPointer

variable (f : FunctionPointer)

/-- The parameters are read behind the opening. -/
theorem run_source (hroot : s.node.kind = .root) (apart : Bool) :
    (State.reading s {}).run (f.source apart).toList =
      (State.reading s { parens := 1, run := f.openingRun ++ [⟨")", false⟩, ⟨"(", false⟩] }).run
        (f.parameterText.toList ++ ')' :: [';']) := by
  rw [← f.run_opening hroot apart]
  simp [source]

theorem recordedIn_scan_of_starred (hname : f.name.text.toList.head? ≠ some '_') (apart : Bool)
    (h : ∀ p ∈ f.parameters.dropLast, p.endsInStar = true) :
    f.RecordedIn (scan (f.source apart) .empty) := by
  obtain ⟨p, ps, hparameters⟩ := List.exists_cons_of_ne_nil f.parameters_ne_nil
  let s : OpenScope := .begin .empty .source
  have hawaits : Run.Awaits (f.openingRun ++ [⟨")", false⟩, ⟨"(", false⟩]) false := by
    have hopen := awaits_openParen (f.openingRun ++ [⟨")", false⟩]) false
    rwa [List.append_assoc] at hopen
  obtain ⟨fragments, htext, hread⟩ := @run_parameters s 0 _ none rfl false
    hawaits p ps (hparameters ▸ h) [';']
  rw [← hparameters] at htext hread
  have hfragments : fragments.tailText = f.parameterText := by
    simpa [spaceIf, parameterText] using htext
  let front : Run := ⟨"typedef", false⟩ :: (f.result.toRun true ++
    [⟨"(", f.result.stars == 0⟩, ⟨"*", false⟩])
  let after : Run := [⟨")", false⟩, ⟨"(", false⟩] ++ fragments ++ [⟨")", false⟩]
  let run : Run := front ++ ⟨f.name.text, false⟩ :: after
  have hrun :
      f.openingRun ++ [⟨")", false⟩, ⟨"(", false⟩] ++ fragments ++ [⟨")", false⟩] = run := by
    simp [openingRun, run, front, after]
  have hindex : OpenScope.aliasIndex run = front.length := by
    have htexts : run.texts = "typedef" :: ((f.result.toRun true).texts ++
        "(" :: "*" :: f.name.text :: Run.texts after) := by
      simp [run, front, Run.texts]
    rw [aliasIndex_pointer (f.result.notMem_texts_toRun (fun w => w.text_ne (by decide))
      (by decide) true) (f.name.text_ne (by decide)) htexts]
    simp [front, Run.texts]
  have hget : run[OpenScope.aliasIndex run]? = some ⟨f.name.text, false⟩ := by
    rw [hindex, List.getElem?_append_right (Nat.le_refl _), Nat.sub_self]
    rfl
  have herase : (run.eraseIdx (OpenScope.aliasIndex run)).drop 1 = f.typeRun fragments := by
    rw [hindex, List.eraseIdx_append_of_length_le (Nat.le_refl _), Nat.sub_self]
    rfl
  obtain ⟨s', claim', hnode, hend⟩ := @step_semicolon_alias s 0 run none rfl _ hget
    (by rw [hindex]; exact Nat.succ_ne_zero _)
  have hscan : scan (f.source apart) .empty =
      Node.empty.withChildren [aliasNode f.name.text (f.typeRun fragments)] := by
    have hread := f.run_source rfl (s := s) apart |>.trans hread
    rw [hrun] at hread
    unfold scan scanWithEvents
    rw [show State.start .empty = State.reading s {} from rfl, hread]
    change ((State.reading s _).step ';').result.node = _
    rw [hend, ← herase]
    refine hnode.trans ?_
    exact record_empty (isPrivate_aliasNode _ _) rfl (f.name.isRecordable_iff.mpr hname)
  rw [hscan]
  exact f.recordedIn_typeRun hfragments

/-- What is recorded instead has a type that stops in the middle. -/
theorem not_recordedIn_scan_of_unstarred (apart : Bool)
    (h : ∃ p ∈ f.parameters.dropLast, p.endsInStar = false)
    (hfirst : ∀ p ∈ f.parameters.tail, p.type.texts.head? ≠ some "typedef") :
    ¬ f.RecordedIn (scan (f.source apart) .empty) := by
  obtain ⟨p, ps, hparameters⟩ := List.exists_cons_of_ne_nil f.parameters_ne_nil
  let s : OpenScope := .begin .empty .source
  let before : Run := f.result.toRun true ++
    [⟨"(", f.result.stars == 0⟩, ⟨"*", false⟩, ⟨f.name.text, false⟩, ⟨")", false⟩]
  obtain ⟨s', claim', name, type, hnode, hlast, hread⟩ := @run_unstarred s none rfl before
    ⟨"(", false⟩ (.inl rfl) p ps (hparameters ▸ h)
    (by rw [hparameters] at hfirst; exact hfirst)
  have hscan : scan (f.source apart) .empty = record .empty (aliasNode name type) := by
    have hopening : f.openingRun ++ [⟨")", false⟩, ⟨"(", false⟩] =
        ⟨"typedef", false⟩ :: (before ++ [⟨"(", false⟩]) := by
      simp [openingRun, before]
    have hsource := f.run_source (s := s) rfl apart
    rw [hopening, parameterText, hparameters] at hsource
    unfold scan scanWithEvents
    rw [show State.start .empty = State.reading s {} from rfl, hsource.trans hread]
    exact hnode
  rintro ⟨-, n, hchildren, -, -, htype, -⟩
  have hn : n = aliasNode name type := by
    rw [hscan] at hchildren
    exact eq_of_record_empty rfl (isPrivate_aliasNode name type) hchildren
  rw [hn, typeText_aliasNode] at htype
  refine hlast ?_
  rw [htype, typeText]
  simp [List.getLast?_cons]

/-- The name of a pointer to functions is recorded, with the type around it, if every parameter but
the last one ends in a star. It is not recorded so otherwise, unless a parameter begins with
`typedef` itself. -/
theorem recordedIn_scan (hname : f.name.text.toList.head? ≠ some '_') (apart : Bool) :
    ((∀ p ∈ f.parameters.dropLast, p.endsInStar = true) →
        f.RecordedIn (scan (f.source apart) .empty)) ∧
      ((∀ p ∈ f.parameters.tail, p.type.texts.head? ≠ some "typedef") →
        f.RecordedIn (scan (f.source apart) .empty) →
          ∀ p ∈ f.parameters.dropLast, p.endsInStar = true) := by
  refine ⟨f.recordedIn_scan_of_starred hname apart, fun hfirst hrecorded p hp => ?_⟩
  cases hstar : p.endsInStar with
  | true => rfl
  | false => exact absurd hrecorded (f.not_recordedIn_scan_of_unstarred apart ⟨p, hp, hstar⟩ hfirst)

def singleType (text : String) (h : isName text.toList = true) (stars : Nat := 0) : NamedType :=
  { words := [⟨text, h⟩], stars, words_ne_nil := List.cons_ne_nil _ _ }

/-- A parameter without a name before one that has a name. -/
theorem recordedIn_scan_callback :
    let f : FunctionPointer :=
      { result := singleType "int" (by decide +kernel)
        name := ⟨"cb", by decide +kernel⟩
        parameters := [⟨singleType "void" (by decide +kernel) 1, none⟩,
          ⟨singleType "int" (by decide +kernel), some ⟨"n", by decide +kernel⟩⟩]
        parameters_ne_nil := List.cons_ne_nil _ _ }
    f.source true = "typedef int (*cb)(void *, int n);" ∧ f.typeText = "int (*)(void *, int n)" ∧
      f.name.text.toList.head? ≠ some '_' ∧
      (∀ p ∈ f.parameters.dropLast, p.endsInStar = true) ∧
      (∀ p ∈ f.parameters.tail, p.type.texts.head? ≠ some "typedef") ∧
      f.RecordedIn (scan (f.source true) .empty) := by
  intro f
  have hname : f.name.text.toList.head? ≠ some '_' := by decide +kernel
  have hstar : ∀ p ∈ f.parameters.dropLast, p.endsInStar = true := by decide +kernel
  have hfirst : ∀ p ∈ f.parameters.tail, p.type.texts.head? ≠ some "typedef" := by decide +kernel
  have hrecorded := (f.recordedIn_scan hname true).1 hstar
  exact ⟨by decide +kernel, by decide +kernel, hname,
    (f.recordedIn_scan hname true).2 hfirst hrecorded, hfirst, hrecorded⟩

/-- A name of a parameter before a comma is taken for the name. -/
theorem recordedIn_scan_twoNames :
    let f : FunctionPointer :=
      { result := singleType "int" (by decide +kernel)
        name := ⟨"cb", by decide +kernel⟩
        parameters := [⟨singleType "int" (by decide +kernel), some ⟨"a", by decide +kernel⟩⟩,
          ⟨singleType "int" (by decide +kernel), some ⟨"b", by decide +kernel⟩⟩]
        parameters_ne_nil := List.cons_ne_nil _ _ }
    f.source true = "typedef int (*cb)(int a, int b);" ∧
      (scan (f.source true) .empty).children.map (fun n => (n.name, n.typeText)) =
        [(some "a", "int (*cb)(int")] ∧
      ¬ f.RecordedIn (scan (f.source true) .empty) := by
  intro f
  have hchildren : (scan (f.source true) .empty).children.map (fun n => (n.name, n.typeText)) =
      [(some "a", "int (*cb)(int")] := by decide +kernel
  refine ⟨by decide +kernel, hchildren, ?_⟩
  rintro ⟨-, n, hn, -, hname, -⟩
  rw [hn] at hchildren
  simp only [List.map_cons, List.map_nil, List.cons.injEq, and_true, Prod.mk.injEq] at hchildren
  exact absurd (hname.symm.trans hchildren.1) (by decide +kernel)

end FunctionPointer

end HeaderDocs.Scan
