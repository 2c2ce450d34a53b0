import HeaderDocs.Proofs.Scan.DeclaratorEnds

/-!
# Lists of declarators

`int *a, b = -1, **c;` declares a variable for each of its declarators. They share the words that the
list begins with; stars and initial values are their own.

* `State.run_list`: reading a list records one node for each declarator.
* `scan_declaratorList`: the variables of a source that is one list.
-/
namespace HeaderDocs.Scan

open HeaderDocs.Text

/-! ## Declarators -/

inductive Sign where
  | plus
  | minus
deriving DecidableEq, Repr

def Sign.mark : Sign → Char
  | plus => '+'
  | minus => '-'

/-- A name or a number, perhaps with a sign. The exponent of a number may have a sign of its own. -/
structure SignedWord where
  sign : Option Sign := none
  word : Word
  exponent : Option (Sign × Word) := none
  marked : exponent.isSome = true →
    word.text.toList.getLast?.any (['e', 'E', 'p', 'P'].contains ·) = true := by simp

structure ListedDeclarator where
  stars : Nat := 0
  name : Name
  value : Option SignedWord := none

namespace SignedWord

/-- A value as it is shown: a sign in the middle stands apart. -/
def text (v : SignedWord) : String :=
  (v.sign.elim "" fun sign => sign.mark.toString) ++ v.word.text ++
    v.exponent.elim "" fun (sign, word) => " " ++ sign.mark.toString ++ " " ++ word.text

/-- The pieces before the last word. -/
def opening (v : SignedWord) : List Piece :=
  v.sign.toList.map (.mark ·.mark) ++
    v.exponent.elim [] fun (sign, _) => [.word v.word, .mark sign.mark]

def last (v : SignedWord) : Word := v.exponent.elim v.word (·.2)

/-- The fragments of a value behind an equals sign. -/
def toRun (v : SignedWord) : Run :=
  (v.sign.toList.map fun sign => ⟨sign.mark.toString, false⟩) ++ ⟨v.word.text, v.sign.isNone⟩ ::
    v.exponent.elim [] fun (sign, word) => [⟨sign.mark.toString, true⟩, ⟨word.text, true⟩]

end SignedWord

/-- The type of a declarator: the words that the list begins with, and its own stars. -/
def listedType (base : List Name) (hbase : base ≠ []) (stars : Nat) : NamedType :=
  { words := base, stars, words_ne_nil := hbase }

namespace ListedDeclarator

/-- The pieces of a declarator before its last word. -/
def opening (d : ListedDeclarator) : List Piece :=
  List.replicate d.stars (.mark '*') ++
    d.value.elim [] fun value => .ofName d.name :: .mark '=' :: value.opening

def last (d : ListedDeclarator) : Word := d.value.elim d.name.toWord (·.last)

variable (base : List Name) (hbase : base ≠ [])

def toDeclarator (d : ListedDeclarator) : Declarator :=
  { name := d.name.text
    type := (listedType base hbase d.stars).toRun false
    initial := d.value.map (·.text) }

def toNode (d : ListedDeclarator) : Node := (d.toDeclarator base hbase).toNode .var

end ListedDeclarator

/-- The texts of a list of declarators with the words before it. Nothing stands between the last word
of a declarator and the comma or semicolon behind it. -/
inductive ListText : List Piece → List ListedDeclarator → List Char → Prop
  | last {lead : List Piece} {d : ListedDeclarator} {cs : List Char} :
      Spaced (lead ++ d.opening) cs → ListText lead [d] (cs ++ (d.last.text.toList ++ [';']))
  | more {lead : List Piece} {d : ListedDeclarator} {ds : List ListedDeclarator}
      {cs gap rest : List Char} :
      Spaced (lead ++ d.opening) cs → IsGap gap → ListText [] ds rest →
      ListText lead (d :: ds) (cs ++ (d.last.text.toList ++ ',' :: (gap ++ rest)))

/-! ## Fragments -/

theorem pushWord_equals (run : Run) (word : String) :
    Run.pushWord (run ++ [⟨"=", true⟩]) word = run ++ [⟨"=", true⟩] ++ [⟨word, true⟩] := by
  simp [Run.pushWord, Run.push, Fragment.startsWith, Fragment.isSign]

theorem pushWord_sign (run : Run) (sign : Sign) (spaced : Bool) (word : String) :
    Run.pushWord (run ++ [⟨sign.mark.toString, spaced⟩]) word =
      run ++ [⟨sign.mark.toString, spaced⟩] ++ [⟨word, spaced⟩] := by
  cases sign <;> cases spaced <;>
    simp [Run.pushWord, Run.push, Fragment.startsWith, Fragment.isSign, Sign.mark]

theorem pushPiece_sign_equals (run : Run) (sign : Sign) :
    Run.pushPiece (run ++ [⟨"=", true⟩]) (.mark sign.mark) =
      run ++ [⟨"=", true⟩] ++ [⟨sign.mark.toString, false⟩] := by
  have hequals : Fragment.endsWord ⟨"=", true⟩ = false := by decide
  cases sign <;> simp [Run.pushPiece, Run.pushMark, Run.push, Sign.mark, hequals]

theorem pushPiece_sign {f : Fragment} (hf : f.endsWord = true) (run : Run) (sign : Sign) :
    Run.pushPiece (run ++ [f]) (.mark sign.mark) = run ++ [f] ++ [⟨sign.mark.toString, true⟩] := by
  cases sign <;> simp [Run.pushPiece, Run.pushMark, Run.push, Sign.mark, hf]

namespace SignedWord

variable (v : SignedWord)

theorem endsWord_of_marked {spaced : Bool} (h : v.exponent.isSome = true) :
    Fragment.endsWord ⟨v.word.text, spaced⟩ = true := by
  have hmarked := v.marked h
  unfold Fragment.endsWord
  cases hlast : v.word.text.toList.getLast? with
  | none => rw [hlast] at hmarked; cases hmarked
  | some c =>
    rw [hlast, Option.any_some, List.contains_eq_mem, decide_eq_true_eq] at hmarked
    have hall : ['e', 'E', 'p', 'P'].all isWordChar = true := by decide
    exact List.all_eq_true.mp hall c hmarked

/-- A value behind an equals sign. -/
theorem foldl_opening (run : Run) :
    (v.opening.foldl Run.pushPiece (run ++ [⟨"=", true⟩])).pushWord v.last.text =
      run ++ [⟨"=", true⟩] ++ v.toRun := by
  have hfirst : (v.sign.toList.map (Piece.mark ·.mark)).foldl Run.pushPiece (run ++ [⟨"=", true⟩]) =
      run ++ [⟨"=", true⟩] ++ v.sign.toList.map (⟨·.mark.toString, false⟩) ∧
      ∀ word, Run.pushWord (run ++ [⟨"=", true⟩] ++ v.sign.toList.map (⟨·.mark.toString, false⟩)) word =
        run ++ [⟨"=", true⟩] ++ v.sign.toList.map (⟨·.mark.toString, false⟩) ++
          [⟨word, v.sign.isNone⟩] := by
    cases v.sign with
    | none => exact ⟨by simp, fun word => by simpa using pushWord_equals run word⟩
    | some sign =>
      exact ⟨by simpa using pushPiece_sign_equals run sign, fun word => pushWord_sign _ sign false word⟩
  unfold opening last toRun
  rw [List.foldl_append, hfirst.1]
  cases hexponent : v.exponent with
  | none => simpa using hfirst.2 v.word.text
  | some exponent =>
    obtain ⟨sign, word⟩ := exponent
    have hends : Fragment.endsWord ⟨v.word.text, v.sign.isNone⟩ = true :=
      v.endsWord_of_marked (by rw [hexponent]; rfl)
    have hword := hfirst.2 v.word.text
    simp only [Option.elim_some, List.foldl_cons, List.foldl_nil]
    rw [show Run.pushPiece _ (.word v.word) = _ from hword, pushPiece_sign hends, pushWord_sign]
    simp

theorem text_toRun : Run.text v.toRun = v.text := by
  unfold toRun text
  cases v.sign <;> cases v.exponent <;>
    simp [Run.text_cons, Run.tailText_cons, String.append_assoc]

end SignedWord

theorem isWord_name (w : Name) (spaced : Bool) : Fragment.isWord ⟨w.text, spaced⟩ = true := by
  have hvalid := w.valid
  unfold Fragment.isWord
  cases htext : w.text.toList with
  | nil => rw [htext] at hvalid; cases hvalid
  | cons c cs =>
    rw [htext, isName, Bool.and_eq_true] at hvalid
    exact hvalid.1

theorem takeWhile_isWord_toRun (t : NamedType) (spaced : Bool) :
    (t.toRun spaced).takeWhile (·.isWord) = wordsRun spaced t.words := by
  have hwords : ∀ f ∈ wordsRun spaced t.words, f.isWord = true := by
    intro f hf
    obtain ⟨w, ws, hcons⟩ := List.exists_cons_of_ne_nil t.words_ne_nil
    rw [hcons, wordsRun, List.mem_cons, List.mem_map] at hf
    rcases hf with rfl | ⟨v, -, rfl⟩
    · exact isWord_name w spaced
    · exact isWord_name v true
  have hstars : (starRun t.stars).takeWhile (·.isWord) = [] := by
    cases t.stars with
    | zero => rfl
    | succ n =>
      have hstar : Fragment.isWord ⟨"*", true⟩ = false := by decide
      simp [starRun, hstar]
  rw [NamedType.toRun, List.takeWhile_append_of_pos hwords, hstars, List.append_nil]

namespace ListedDeclarator

variable (base : List Name) (hbase : base ≠ []) (d : ListedDeclarator)

/-- What is collected of a declarator behind the words that the list begins with. -/
theorem foldl_opening (hbase : base ≠ []) :
    (d.opening.foldl Run.pushPiece (wordsRun false base)).pushWord d.last.text =
      (listedType base hbase d.stars).toRun false ++ ⟨d.name.text, d.stars == 0⟩ ::
        d.value.elim [] fun value => ⟨"=", true⟩ :: value.toRun := by
  have hend : Run.EndsInName (wordsRun false base) := endsInName_wordsRun hbase [] false
  have hname : Run.pushWord (wordsRun false base ++ starRun d.stars) d.name.text =
      wordsRun false base ++ starRun d.stars ++ [⟨d.name.text, d.stars == 0⟩] := by
    by_cases hzero : d.stars = 0
    · rw [hzero, starRun, List.append_nil]
      exact hend.pushWord _
    · rw [awaits_stars _ hzero, beq_eq_false_iff_ne.mpr hzero]
  unfold opening last
  rw [List.foldl_append, foldl_stars hend, NamedType.toRun]
  cases d.value with
  | none => exact hname
  | some value =>
    have hequals : Run.pushPiece (wordsRun false base ++ starRun d.stars ++
        [⟨d.name.text, d.stars == 0⟩]) (.mark '=') = wordsRun false base ++ starRun d.stars ++
          [⟨d.name.text, d.stars == 0⟩] ++ [⟨"=", true⟩] :=
      (Run.endsInName_concat _ d.name _).pushMark "="
    simp only [Option.elim_some, List.foldl_cons]
    rw [show Run.pushPiece _ (Piece.ofName d.name) = _ from hname, hequals, value.foldl_opening]
    simp [listedType]

theorem ofRun?_toDeclarator :
    Declarator.ofRun? ((d.opening.foldl Run.pushPiece (wordsRun false base)).pushWord d.last.text) =
      some (d.toDeclarator base hbase) := by
  have hequals : "=" ∉ ((listedType base hbase d.stars).toRun false).texts :=
    NamedType.notMem_texts_toRun _ (fun w => w.text_ne (by decide)) (by decide) false
  have hclose : Fragment.startsWith ⟨d.name.text, d.stars == 0⟩ ')' = false := by
    obtain ⟨c, cs, htext⟩ := List.exists_cons_of_ne_nil d.name.chars.1
    have hc : c ≠ ')' := by
      rintro rfl
      exact d.name.notMem (by decide : isWordChar ')' = false) (htext ▸ List.mem_cons_self ..)
    simpa [Fragment.startsWith, htext] using hc
  rw [foldl_opening base d hbase, ofRun?_named hequals ⟨d.name.text, _⟩ (d.name.text_ne (by decide))
      hclose,
    NamedType.closeUp_toRun, toDeclarator]
  · cases d.value with
    | none => rfl
    | some value => simp [value.text_toRun]
  · cases d.value with
    | none => simp
    | some value => simp

theorem depth_opening : d.opening.foldlM Piece.depth? 0 = some 0 := by
  have hsign : ∀ sign : Sign, Piece.depth? 0 (.mark sign.mark) = some 0 := fun sign => by
    cases sign <;> rfl
  have hword : ∀ w : Word, Piece.depth? 0 (.word w) = some 0 := fun _ => rfl
  have hvalue : ∀ value : SignedWord, value.opening.foldlM Piece.depth? 0 = some 0 := fun value => by
    unfold SignedWord.opening
    cases value.sign <;> cases value.exponent <;> simp [hsign, hword]
  rw [opening, List.foldlM_append, depth_stars]
  cases d.value with
  | none => rfl
  | some value =>
    simp only [Option.elim_some, List.foldlM_cons]
    exact hvalue value

end ListedDeclarator

/-- Behind shared words any piece may stand. -/
theorem Context.admits_of_startRun {c : Context} {scope : Kind} (hscope : scope.isRecord = false)
    (hrun : c.startRun.run ≠ []) (p : Piece) : c.Admits scope p := by
  cases p with
  | word w =>
    refine ⟨fun _ h => ?_, fun h => absurd h hrun⟩
    rw [hscope] at h
    cases h
  | mark m => exact hrun

/-! ## Reading -/

namespace State

variable {t : State} {base : List Name} (hbase : base ≠ [])

/-- Reading a declarator of a list, up to the mark behind it, records a node. -/
theorem run_declarator (hroot : t.scope.node.kind = .root)
    (hleads : base.head?.map (·.text) ∉ [some "typedef", some "static", some "extern"])
    {lead : List Piece} {d : ListedDeclarator} {cs : List Char} (hcs : Spaced (lead ++ d.opening) cs)
    {c : Context} {run : Run} {claim : Option (List Claim)} (hc : c.startRun = { run, claim })
    (hlead : lead = base.map .ofName ∧ run = [] ∨ lead = [] ∧ run = wordsRun false base)
    {e : Char} (he : e = ',' ∨ e = ';') (rest : List Char) :
    ∃ s claim, t.scope.Gains (d.toNode base hbase) s ∧
      (t.inContext c).run (cs ++ (d.last.text.toList ++ e :: rest)) =
        ((t.inScope s).inContext
          { base := if e == ',' then wordsRun false base else [], claim }).run (e :: rest) := by
  have hkind : t.scope.node.kind.isRecord = false := by rw [hroot]; rfl
  have hhead : (wordsRun false base).texts.head? = base.head?.map (·.text) := by
    obtain ⟨first, words, rfl⟩ := List.exists_cons_of_ne_nil hbase
    rfl
  have hne : wordsRun false base ≠ [] := by
    obtain ⟨first, words, rfl⟩ := List.exists_cons_of_ne_nil hbase
    exact List.cons_ne_nil _ _
  obtain ⟨htypedef, hleft⟩ := head_of_leads hleads
  have hdeclares : c.Declares := Context.declares_of_startRun <| by
    rw [hc]
    exact ⟨rfl, rfl, rfl, rfl, rfl, rfl⟩
  have hparens : c.parens = 0 := by rw [← Context.parens_startRun, hc]
  have hstart : c.startRun.run.texts.head? ≠ some "typedef" := by
    rw [hc]
    obtain ⟨-, rfl⟩ | ⟨-, rfl⟩ := hlead
    · exact nofun
    · exact hhead ▸ htypedef
  have hfirst : ∀ p, (lead ++ d.opening).head? = some p → c.Admits t.scope.node.kind p := by
    intro p hp
    obtain ⟨rfl, -⟩ | ⟨-, rfl⟩ := hlead
    · obtain ⟨first, words, rfl⟩ := List.exists_cons_of_ne_nil hbase
      obtain rfl := Option.some.inj hp
      refine ⟨fun _ h => ?_, fun _ he => htypedef (congrArg some he)⟩
      rw [hkind] at h
      cases h
    · exact Context.admits_of_startRun hkind (by rw [hc]; exact hne) p
  have hdepth : (lead ++ d.opening).foldlM Piece.depth? c.parens = some 0 := by
    rw [hparens, List.foldlM_append]
    obtain ⟨rfl, -⟩ | ⟨rfl, -⟩ := hlead
    · rw [depth_names]
      exact d.depth_opening
    · exact d.depth_opening
  have hcollected : (lead ++ d.opening).foldl Run.pushPiece run =
      d.opening.foldl Run.pushPiece (wordsRun false base) := by
    obtain ⟨rfl, rfl⟩ | ⟨rfl, rfl⟩ := hlead
    · rw [List.foldl_append, foldl_names awaits_nil, List.nil_append]
    · rfl
  obtain ⟨claim₁, c', hc', -, hread⟩ := run_pieces (t := t) hcs hdeclares (by rw [hc])
    (fun h => absurd hparens h) hstart hfirst hdepth (d.last.text.toList ++ e :: rest)
  rw [hc] at hc'
  dsimp only at hc'
  rw [hcollected] at hc'
  have hrun' : c'.startRun.run = d.opening.foldl Run.pushPiece (wordsRun false base) := by rw [hc']
  have hhead' : c'.startRun.run.texts.head? = base.head?.map (·.text) := by
    rw [hrun', Run.head?_texts_foldl_pushPiece hne, hhead]
  obtain ⟨s, claim₂, hgains, hword⟩ := run_word_ends (t := t) (c := c')
    (Context.declares_of_startRun (by rw [hc']; exact ⟨rfl, rfl, rfl, rfl, rfl, rfl⟩))
    (by rw [← Context.parens_startRun, hc']) (by rw [hrun']; exact Run.foldl_pushPiece_ne_nil hne _)
    (fun _ => hkind) (hhead' ▸ htypedef) (by rw [hhead', hroot]; exact hleft) d.last
    (by rw [hrun']; exact d.ofRun?_toDeclarator base hbase) he rest
  rw [← Context.variableNode_startRun, hc'] at hgains
  rw [← Context.declared_startRun, hc'] at hword
  refine ⟨s, claim₂, hgains, hread.trans (hword.trans ?_)⟩
  rw [ListedDeclarator.toDeclarator, takeWhile_isWord_toRun]
  rfl

theorem run_list (hroot : t.scope.node.kind = .root)
    (hleads : base.head?.map (·.text) ∉ [some "typedef", some "static", some "extern"])
    {lead : List Piece} {ds : List ListedDeclarator} {cs : List Char} (hcs : ListText lead ds cs)
    {c : Context} {run : Run} {claim : Option (List Claim)} (hc : c.startRun = { run, claim })
    (hlead : lead = base.map .ofName ∧ run = [] ∨ lead = [] ∧ run = wordsRun false base) :
    ∃ s claim, s.node = ds.foldl (fun scope d => record scope (d.toNode base hbase)) t.scope.node ∧
      (t.inContext c).run cs = (t.inScope s).inContext { claim } := by
  have hplain : ∀ (base : Run) claim, ({ base, claim } : Context).Declares :=
    fun _ _ => ⟨rfl, rfl, rfl, rfl, rfl, rfl⟩
  induction hcs generalizing t c run claim with
  | @last lead d cs hcs =>
    obtain ⟨s, claim₁, hgains, hread⟩ := run_declarator hbase hroot hleads hcs hc hlead
      (.inr rfl) []
    refine ⟨s, claim₁, hgains.node, hread.trans ?_⟩
    exact step_semicolon_nothing (hplain _ _) rfl
  | @more lead d ds cs gap rest hcs hgap _ ih =>
    obtain ⟨s, claim₁, hgains, hread⟩ := run_declarator hbase hroot hleads hcs hc hlead
      (.inl rfl) (gap ++ rest)
    obtain ⟨claim₂, hgap'⟩ := run_gap_inContext (t := t.inScope s)
      (c := { base := wordsRun false base }) rfl claim₁ hgap rest
    obtain ⟨s', claim₃, hnode, hrest⟩ := ih (t := t.inScope s)
      (c := { base := wordsRun false base, claim := claim₂ }) (hgains.kind.trans hroot) rfl
      (.inr ⟨rfl, rfl⟩)
    have hcomma : ((t.inScope s).inContext
        { base := wordsRun false base, claim := claim₁ }).step ',' = _ :=
      step_comma_declared (hplain _ _) rfl
    refine ⟨s', claim₃, hnode.trans ?_, hread.trans ?_⟩
    · rw [List.foldl_cons, ← hgains.node]
      rfl
    · change (State.step _ ',').run (gap ++ rest) = _
      exact (congrArg (State.run · (gap ++ rest)) hcomma).trans (hgap'.trans hrest)

end State

/-! ## What is recorded -/

def lastDeclarator? (ds : List ListedDeclarator) (name : String) : Option ListedDeclarator :=
  ds.reverse.find? (·.name.text == name)

structure DocumentsList (base : List Name) (hbase : base ≠ []) (ds : List ListedDeclarator)
    (tree : Node) : Prop where
  root : tree = Node.empty.withChildren tree.children
  ascending : (tree.children.filterMap (·.name)).Pairwise (· < ·)
  /-- There is a node for the last declarator of each name that is not private, and no other one. -/
  mem_iff : ∀ n, n ∈ tree.children ↔ ∃ d, lastDeclarator? ds d.name.text = some d ∧
    d.name.text.toList.head? ≠ some '_' ∧ n = d.toNode base hbase
  documented : ∀ d ∈ ds, (d.toNode base hbase).kind = .var ∧
    (d.toNode base hbase).name = some d.name.text ∧
    (d.toNode base hbase).typeText = String.intercalate " " (base.map (·.text)) ++
      (if d.stars = 0 then "" else " " ++ starText d.stars) ∧
    (d.toNode base hbase).attrs.initial = d.value.map (·.text)

namespace ListedDeclarator

variable (base : List Name) (hbase : base ≠ []) (d : ListedDeclarator)

theorem label?_toNode : (d.toNode base hbase).label? = some (.var, d.name.text) := rfl

theorem isPrivate_toNode : (d.toNode base hbase).isPrivate = false :=
  (by decide +kernel : Comment.isPrivate "" = false)

theorem foldl_record (ds : List ListedDeclarator) (scope : Node) :
    ds.foldl (fun scope d => record scope (d.toNode base hbase)) scope =
      ((ds.filter (Node.isRecordable ·.name.text)).map (·.toNode base hbase)).foldl record scope := by
  induction ds generalizing scope with
  | nil => rfl
  | cons d ds ih =>
    rw [List.foldl_cons, ih]
    cases hd : Node.isRecordable d.name.text with
    | true => simp [hd]
    | false => simp [hd, record_of_not_recordable (n := d.toNode base hbase) rfl hd]

theorem lastPublicNode?_toNode (ds : List ListedDeclarator)
    (hd : Node.isRecordable d.name.text = true) :
    lastPublicNode? ((ds.filter (Node.isRecordable ·.name.text)).map (·.toNode base hbase))
        (d.toNode base hbase).label? =
      (lastDeclarator? ds d.name.text).map (·.toNode base hbase) := by
  unfold lastPublicNode? lastDeclarator?
  rw [← List.map_reverse, List.find?_map, ← List.filter_reverse, List.find?_filter]
  congr 2
  funext e
  have hlabel : ((e.toNode base hbase).label? == (d.toNode base hbase).label?) =
      (e.name.text == d.name.text) := by
    rw [label?_toNode, label?_toNode, Bool.eq_iff_iff]
    simp
  rw [Function.comp_apply, hlabel, isPrivate_toNode]
  by_cases he : e.name.text = d.name.text <;> simp [he, hd]

end ListedDeclarator

/-- A source that is a list of declarators documents one variable for each name: the last declarator
of the name, with the stars and the initial value of its own. -/
theorem scan_declaratorList {base : List Name} (hbase : base ≠ [])
    (hleads : base.head?.map (·.text) ∉ [some "typedef", some "static", some "extern"])
    {ds : List ListedDeclarator} {text : String}
    (h : ListText (base.map .ofName) ds text.toList) :
    DocumentsList base hbase ds (scan text .empty) := by
  let nodes := (ds.filter (Node.isRecordable ·.name.text)).map (·.toNode base hbase)
  have hnodes : ∀ n ∈ nodes, Recordable n := by
    intro n hn
    obtain ⟨d, hd, rfl⟩ := List.mem_map.mp hn
    exact ⟨rfl, ⟨d.name.text, rfl, (List.mem_filter.mp hd).2⟩, (by decide : Kind.var ≠ .description)⟩
  obtain ⟨children, hrecorded, hfold⟩ := recorded_nil.foldl nofun hnodes
  rw [List.nil_append] at hrecorded
  obtain ⟨s, claim, hnode, hread⟩ := State.run_list (t := State.start .empty) hbase rfl
    hleads h (c := {}) rfl (.inl ⟨rfl, rfl⟩)
  have hscan : scan text .empty = Node.empty.withChildren children := by
    have hrun : (State.start .empty).run text.toList = _ := hread
    unfold scan scanWithEvents
    rw [hrun]
    exact hnode.trans ((ListedDeclarator.foldl_record base hbase ds _).trans hfold)
  rw [hscan]
  refine ⟨rfl, ?_, fun n => ?_, fun d _ => ⟨rfl, rfl, ?_, rfl⟩⟩
  · refine hrecorded.ascending_of_kind .var fun n hn => ?_
    obtain ⟨d, -, rfl⟩ := List.mem_map.mp hn
    rfl
  · rw [show n ∈ (Node.empty.withChildren children).children ↔ _ from hrecorded.mem_iff n]
    constructor
    · intro hn
      obtain ⟨d, hd, rfl⟩ := List.mem_map.mp (mem_of_lastPublicNode? hn)
      have hname := (List.mem_filter.mp hd).2
      rw [d.lastPublicNode?_toNode base hbase ds hname] at hn
      obtain ⟨e, he, hnode⟩ := Option.map_eq_some_iff.mp hn
      have hsame : e.name.text = d.name.text := by simpa using List.find?_some he
      exact ⟨e, hsame ▸ he, hsame ▸ d.name.isRecordable_iff.mp hname, hnode.symm⟩
    · rintro ⟨d, hd, hname, rfl⟩
      rw [d.lastPublicNode?_toNode base hbase ds (d.name.isRecordable_iff.mpr hname), hd]
      rfl
  · exact (Run.text_toType _).trans ((listedType base hbase d.stars).text_toRun false)

/-- A name that is declared twice, one that is not documented, and values with signs. -/
theorem scan_declaratorList_twice :
    let name (text : String) (h : isName text.toList = true) : Name := ⟨text, h⟩
    let base := [name "const" (by decide +kernel), name "char" (by decide +kernel)]
    let minus (text : String) (h : isNameOrNumber text.toList = true) : SignedWord :=
      { sign := some .minus, word := ⟨text, h⟩ }
    let ds : List ListedDeclarator := [
      { stars := 1, name := name "p" (by decide +kernel) },
      { name := name "_n" (by decide +kernel), value := some (minus "1" (by decide +kernel)) },
      { stars := 2, name := name "p" (by decide +kernel)
        value := some { word := ⟨"end", by decide +kernel⟩ } },
      { name := name "q" (by decide +kernel), value := some (minus "2.5" (by decide +kernel)) }]
    let text := "const char *p, _n = -1,** p = end,\n  q=- 2.5;"
    base.head?.map (·.text) ∉ [some "typedef", some "static", some "extern"] ∧
      ListText (base.map .ofName) ds text.toList ∧
      DocumentsList base (List.cons_ne_nil _ _) ds (scan text .empty) ∧
      (scan text .empty).children.map (fun n => (n.name, n.typeText, n.attrs.initial)) =
        [(some "p", "const char **", some "end"), (some "q", "const char", some "-2.5")] := by
  intro name base minus ds text
  have hleads : base.head?.map (·.text) ∉ [some "typedef", some "static", some "extern"] := by
    decide +kernel
  have hlist : ListText (base.map .ofName) ds _ :=
    .more (.word (by decide : IsGap [' ']) (by simp) <| .word (by decide : IsGap [' ']) (by simp) <|
      .mark (by decide : IsGap []) .nil) (by decide : IsGap [' ']) <|
    .more (.word (by decide : IsGap [' ']) (by simp) <| .mark (by decide : IsGap [' ']) <|
      .mark (by decide : IsGap []) .nil) (by decide : IsGap []) <|
    .more (.mark (by decide : IsGap []) <| .mark (by decide : IsGap [' ']) <|
      .word (by decide : IsGap [' ']) (by simp) <| .mark (by decide : IsGap [' ']) .nil)
      (by decide : IsGap ['\n', ' ', ' ']) <|
    .last (.word (by decide : IsGap []) (fun _ => ⟨'=', rfl, by decide⟩) <|
      .mark (by decide : IsGap []) <| .mark (by decide : IsGap [' ']) .nil)
  have htext : ListText (base.map .ofName) ds text.toList :=
    Eq.subst (motive := ListText (base.map .ofName) ds) (by decide +kernel) hlist
  exact ⟨hleads, htext, scan_declaratorList _ hleads htext, by decide +kernel⟩

end HeaderDocs.Scan
