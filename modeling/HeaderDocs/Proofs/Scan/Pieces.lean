import HeaderDocs.Proofs.Scan.NamedTypes

/-!
# Words and marks with white space between them

A declaration is a row of words and marks, and the white space between them is free. As long as
nothing in the row ends a declarator or starts a function, every piece is collected in the run of the
context, in whatever scope the declaration stands.

* `State.run_pieces`: reading a row of pieces.
* `NamedType.foldl_pieces`: the fragments that are collected for a type.
-/
namespace HeaderDocs.Scan

open HeaderDocs.Text

/-! ## Pieces -/

def isNameOrNumber (cs : List Char) : Bool :=
  !cs.isEmpty && cs.all fun c => isWordChar c || c == '.'

structure Word where
  text : String
  valid : isNameOrNumber text.toList = true
deriving DecidableEq

inductive Piece where
  | word (word : Word)
  | mark (c : Char)
deriving DecidableEq

/-- The texts of a row of pieces, with white space after each. Two words do not touch, and no word
touches an opening parenthesis. -/
inductive Spaced : List Piece → List Char → Prop
  | nil : Spaced [] []
  | word {w : Word} {gap : List Char} {ps : List Piece} {cs : List Char} :
      IsGap gap → (gap = [] → ∃ c, ps.head? = some (.mark c) ∧ c ≠ '(') → Spaced ps cs →
      Spaced (.word w :: ps) (w.text.toList ++ (gap ++ cs))
  | mark {c : Char} {gap : List Char} {ps : List Piece} {cs : List Char} :
      IsGap gap → Spaced ps cs → Spaced (.mark c :: ps) (c :: (gap ++ cs))

theorem Word.chars (w : Word) :
    w.text.toList ≠ [] ∧ ∀ c ∈ w.text.toList, (isWordChar c || c == '.') = true := by
  simpa [isNameOrNumber] using w.valid

def Name.toWord (w : Name) : Word where
  text := w.text
  valid := by
    obtain ⟨hne, hchars⟩ := w.chars
    simpa [isNameOrNumber, hne] using fun c hc => .inl (hchars c hc)

namespace Piece

def ofName (w : Name) : Piece := .word w.toWord

/-- How many parentheses are open after a piece, if no mark ends a declarator: commas stand in
parentheses, and these are not nested. -/
def depth? : Nat → Piece → Option Nat
  | depth, word _ => some depth
  | 0, mark '(' => some 1
  | 1, mark ')' => some 0
  | 1, mark ',' => some 1
  | depth, mark '=' => some depth
  | depth, mark '*' => some depth
  | depth, mark '+' => some depth
  | depth, mark '-' => some depth
  | _, _ => none

end Piece

def Run.pushPiece (run : Run) : Piece → Run
  | .word w => run.pushWord w.text
  | .mark c => if c == ')' || c == ',' then run.push c.toString false else run.pushMark c.toString

theorem Run.pushPiece_ne_nil (run : Run) (p : Piece) : run.pushPiece p ≠ [] := by
  cases p with
  | word w => simp [pushPiece, pushWord, push]
  | mark m =>
    unfold pushPiece
    dsimp only
    split <;> simp [pushMark, push]

theorem Run.head?_texts_pushPiece {run : Run} (hrun : run ≠ []) (p : Piece) :
    (run.pushPiece p).texts.head? = run.texts.head? := by
  obtain ⟨f, fs, rfl⟩ := List.exists_cons_of_ne_nil hrun
  cases p with
  | word w => rfl
  | mark m =>
    unfold pushPiece
    dsimp only
    split <;> rfl

theorem Run.foldl_pushPiece_ne_nil {run : Run} (hrun : run ≠ []) (ps : List Piece) :
    ps.foldl Run.pushPiece run ≠ [] := by
  induction ps generalizing run with
  | nil => exact hrun
  | cons p ps ih => exact ih (run.pushPiece_ne_nil p)

theorem Run.head?_texts_foldl_pushPiece {run : Run} (hrun : run ≠ []) (ps : List Piece) :
    (ps.foldl Run.pushPiece run).texts.head? = run.texts.head? := by
  induction ps generalizing run with
  | nil => rfl
  | cons p ps ih =>
    rw [List.foldl_cons, ih (run.pushPiece_ne_nil p), head?_texts_pushPiece hrun]

/-! ## Contexts -/

namespace Context

variable {c : Context}

/-- The shared words of a list of declarators are no obstacle to one more declarator. -/
theorem declares_of_startRun (h : c.startRun.Declares) : c.Declares := by
  unfold startRun at h
  split at h
  · exact ⟨h.braces, h.header, h.joinable, h.enumeration, h.typeAlias, h.record⟩
  · exact h

theorem pushMark_of_startRun (hrun : c.startRun.run ≠ []) (mark : String) :
    c.pushMark mark = { c.startRun with run := c.startRun.run.pushMark mark } :=
  if_neg (by simpa using hrun)

theorem pushIfStarted_of_run (hrun : c.run ≠ []) (text : String) (spaced : Bool) :
    c.pushIfStarted text spaced = { c with run := c.run.push text spaced } :=
  if_neg (by simpa using hrun)

namespace Declares

theorem withRun (hc : c.Declares) (run : Run) (parens : Nat) (claim : Option (List Claim)) :
    ({ c with run, parens, claim } : Context).Declares :=
  ⟨hc.braces, hc.header, hc.joinable, hc.enumeration, hc.typeAlias, hc.record⟩

theorem inEnumeration (hc : c.Declares) : c.inEnumeration = false := by
  simp [Context.inEnumeration, hc.enumeration]

theorem openParen (hrun : c.startRun.run ≠ []) :
    c.openParen =
      { c.startRun with run := c.startRun.run.pushMark "(", parens := c.parens + 1 } := by
  unfold Context.openParen
  rw [pushMark_of_startRun hrun, ← parens_startRun]

theorem closeParen (hc : c.Declares) (hrun : c.run ≠ []) (hparens : c.parens ≠ 0) :
    c.closeParen = { c with run := c.run.push ")" false, parens := c.parens - 1 } := by
  unfold Context.closeParen
  rw [hc.inArguments, if_neg Bool.false_ne_true, if_pos (Nat.pos_of_ne_zero hparens),
    pushIfStarted_of_run hrun]

theorem comma (hc : c.Declares) (hrun : c.run ≠ []) :
    c.comma = { c with run := c.run.push "," false } := by
  unfold Context.comma
  rw [hc.inEnumeration, hc.inArguments, if_neg Bool.false_ne_true, if_neg Bool.false_ne_true,
    pushIfStarted_of_run hrun]

theorem equals (hc : c.Declares) : c.equals = c.pushMark "=" := by
  unfold Context.equals
  rw [hc.inEnumeration, if_neg Bool.false_ne_true]

end Declares

/-- A run begins with a word, and in a record this is not the access of members. -/
def Admits (c : Context) (scope : Kind) : Piece → Prop
  | .word w =>
    (c.run = [] → scope.isRecord = true → isAccess (withoutColons w.text) = false) ∧
      (c.startRun.run = [] → w.text ≠ "typedef")
  | .mark _ => c.startRun.run ≠ []

theorem admits_of_run (hrun : c.run ≠ []) (scope : Kind) (p : Piece) : c.Admits scope p := by
  have hstart : c.startRun.run ≠ [] := by rwa [startRun_of_run hrun]
  cases p with
  | word w => exact ⟨fun he => absurd he hrun, fun he => absurd he hstart⟩
  | mark m => exact hstart

end Context

/-! ## Reading -/

theorem Piece.of_depth? {parens depth : Nat} {m : Char}
    (h : Piece.depth? parens (.mark m) = some depth) :
    State.isWordPart parens m = false ∧ (m = ',' → parens = 1) ∧ m ≠ ';' := by
  have hmark : ∀ m ∈ ['(', ')', '=', '*', '+', '-'],
      State.isWordPart parens m = false ∧ (m = ',' → parens = 1) ∧ m ≠ ';' := by
    have hpart : ['(', ')', '=', '*', '+', '-'].all (!State.isWordPart parens ·) = true := by
      simp [State.isWordPart]
      decide
    have hother : ['(', ')', '=', '*', '+', '-'].all (fun m => m != ',' && m != ';') = true := by
      decide
    intro m hm
    have hm' := List.all_eq_true.mp hother m hm
    simp only [Bool.and_eq_true, bne_iff_ne] at hm'
    exact ⟨by simpa using List.all_eq_true.mp hpart m hm, fun he => absurd he hm'.1, hm'.2⟩
  unfold Piece.depth? at h
  split at h
  case h_1 hm => cases hm
  case h_4 hm =>
    cases hm
    exact ⟨by decide, fun _ => rfl, by decide⟩
  case h_9 => cases h
  all_goals
    rename_i hm
    cases hm
    exact hmark _ (by decide)

namespace State

variable {t : State} {c : Context} {claim : Option (List Claim)}

theorem run_word_inContext (hc : c.joinable = false) (w : Word) {d : Char}
    (hd : isWordPart c.parens d = false) (rest : List Char) :
    (t.inContext c).run (w.text.toList ++ d :: rest) =
      ((t.inContext c).update (·.word w.text d)).run (d :: rest) := by
  obtain ⟨hne, hchars⟩ := w.chars
  refine run_wordStarts hc hne (fun e he => ?_) hd rest
  rcases Bool.or_eq_true _ _ ▸ hchars e he with h | h
  · exact (isWordPart_of_isWordChar h 0).1
  · rw [eq_of_beq h]
    decide

theorem run_word_collected (hc : c.Declares) (w : Word) {d : Char}
    (hd : isWordPart c.parens d = false)
    (haccess : c.run = [] → t.scope.node.kind.isRecord = true →
      isAccess (withoutColons w.text) = false)
    (hopen : d = '(' → "=" ∈ c.startRun.run.texts)
    (hends : d = ',' ∨ d = ';' → c.startRun.run = [] ∨
      c.startRun.run.texts.head? ≠ some "typedef" ∧ c.parens ≠ 0) (rest : List Char) :
    (t.inContext c).run (w.text.toList ++ d :: rest) =
      (t.inContext (c.pushWord w.text)).run (d :: rest) := by
  have hcollected : (t.inContext c).update (·.word w.text d) = t.inContext (c.pushWord w.text) :=
    congrArg (fun scope => { t with mode := .plain, scope })
      (OpenScope.word_collected (s := { t.scope with context := c }) hc haccess
        (fun he => .inr (hopen he)) hends)
  rw [run_word_inContext hc.joinable w hd, hcollected]

theorem step_mark_inContext (hc : c.joinable = false) {m : Char} (hspace : isSpace m = false)
    (hslash : m ≠ '/') {f : Context → Context} (hmark : ∀ t : State, t.mark m = t.update (·.update f)) :
    (t.inContext c).step m = t.inContext (f c) := by
  have hline : m ≠ '\n' := by
    rintro rfl
    exact absurd hspace (by decide)
  change (t.inContext c).plain m = _
  unfold State.plain
  rw [if_neg (by simpa using hline), if_neg (by simp [hspace]), if_neg (by simpa using hslash),
    inContext_joinable hc, hmark]
  rfl

/-- A mark that ends no declarator is collected. -/
theorem step_piece (hc : c.Declares) (hrun : c.startRun.run ≠ []) (hbase : c.parens ≠ 0 → c.base = [])
    {m : Char} {depth : Nat} (hdepth : Piece.depth? c.parens (.mark m) = some depth) :
    (t.inContext c).step m = t.inContext
      { c.startRun with run := c.startRun.run.pushPiece (.mark m), parens := depth } := by
  have hnested : c.parens = 1 → c.startRun = c ∧ c.run ≠ [] := fun hone => by
    have hstart : c.startRun = c := Context.startRun_of_base (hbase (by simp [hone]))
    exact ⟨hstart, hstart ▸ hrun⟩
  have hsame : ∀ mark, c.pushMark mark =
      { c.startRun with run := c.startRun.run.pushMark mark, parens := c.parens } := fun mark => by
    rw [Context.pushMark_of_startRun hrun, ← Context.parens_startRun]
  unfold Piece.depth? at hdepth
  split at hdepth
  case h_1 hm => cases hm
  case h_2 hzero hm =>
    cases hm
    cases hdepth
    rw [step_mark_inContext hc.joinable (by decide) (by decide) fun _ => rfl,
      Context.Declares.openParen hrun, hzero]
    rfl
  case h_3 hone hm =>
    cases hm
    cases hdepth
    obtain ⟨hstart, hne⟩ := hnested hone
    rw [step_mark_inContext hc.joinable (by decide) (by decide) fun _ => rfl,
      hc.closeParen hne (by simp [hone]), hone, hstart]
    rfl
  case h_4 hone hm =>
    cases hm
    cases hdepth
    obtain ⟨hstart, hne⟩ := hnested hone
    rw [step_mark_inContext hc.joinable (by decide) (by decide) fun _ => rfl, hc.comma hne, hstart,
      ← hone]
    rfl
  case h_5 hm =>
    cases hm
    cases hdepth
    rw [step_mark_inContext hc.joinable (by decide) (by decide) fun _ => rfl, hc.equals, hsame]
    rfl
  case h_9 => cases hdepth
  all_goals
    rename_i hm
    cases hm
    cases hdepth
    rw [step_mark_inContext hc.joinable (by decide) (by decide) fun _ => rfl, hsame]
    rfl

/-- What stands behind a word of a row ends neither the word nor a declarator. -/
theorem exists_terminator {ps : List Piece} {cs gap : List Char} (hgap : IsGap gap)
    (hsep : gap = [] → ∃ m, ps.head? = some (.mark m) ∧ m ≠ '(') (hcs : Spaced ps cs)
    {parens depth : Nat} (hdepth : ps.foldlM Piece.depth? parens = some depth) (rest : List Char) :
    ∃ d after, gap ++ (cs ++ rest) = d :: after ∧ isWordPart parens d = false ∧ d ≠ '(' ∧
      (d = ',' ∨ d = ';' → parens ≠ 0) := by
  cases gap with
  | cons d gap =>
    have hspace : isSpace d = true := (isGap_cons.mp hgap).1
    have hmarks : d ∉ ['(', ',', ';'] := notMem_of_class (by decide) hspace
    simp only [List.mem_cons, List.not_mem_nil, or_false, not_or] at hmarks
    exact ⟨d, gap ++ (cs ++ rest), rfl, isWordPart_of_isSpace hspace _, hmarks.1,
      fun he => he.elim (fun he => absurd he hmarks.2.1) fun he => absurd he hmarks.2.2⟩
  | nil =>
    obtain ⟨m, hm, hopen⟩ := hsep rfl
    obtain ⟨ps, rfl⟩ := List.head?_eq_some_iff.mp hm
    cases hcs with
    | @mark m gap ps cs hgap hcs =>
      rw [List.foldlM_cons] at hdepth
      obtain ⟨depth', hm, -⟩ := Option.bind_eq_some_iff.mp hdepth
      obtain ⟨hpart, hcomma, hsemicolon⟩ := Piece.of_depth? hm
      exact ⟨m, gap ++ cs ++ rest, rfl, hpart, hopen,
        fun he => he.elim (fun he => by simp [hcomma he]) fun he => absurd he hsemicolon⟩

/-- Reading a piece. What declarators of a list share counts as read. -/
theorem run_piece {p : Piece} {ps : List Piece} {cs : List Char} (hcs : Spaced (p :: ps) cs)
    (hc : c.Declares) (hnested : c.parens ≠ 0 → c.base = [])
    (htypedef : c.startRun.run.texts.head? ≠ some "typedef")
    (hfirst : c.Admits t.scope.node.kind p) {depth last : Nat}
    (hdepth : Piece.depth? c.parens p = some depth)
    (hlast : ps.foldlM Piece.depth? depth = some last) (rest : List Char) :
    ∃ claim cs', Spaced ps cs' ∧
      (t.inContext c).run (cs ++ rest) =
        (t.inContext { c.startRun with run := c.startRun.run.pushPiece p, parens := depth, claim }).run
          (cs' ++ rest) := by
  cases hcs with
  | @word w gap ps cs hgap hsep hcs =>
    obtain rfl := Option.some.inj hdepth
    obtain ⟨d, after, htext, hpart, hopen, hends⟩ := exists_terminator hgap hsep hcs hlast rest
    have hword : (t.inContext c).run (w.text.toList ++ (gap ++ cs) ++ rest) =
        (t.inContext (c.pushWord w.text)).run (gap ++ (cs ++ rest)) := by
      rw [List.append_assoc, List.append_assoc, htext]
      exact run_word_collected hc w hpart hfirst.1 (fun he => absurd he hopen)
        (fun he => .inr ⟨htypedef, hends he⟩) after
    have hpush : c.pushWord w.text = { c.startRun with
        run := c.startRun.run.pushPiece (.word w), parens := c.parens, claim := c.startRun.claim } := by
      rw [← Context.parens_startRun]
      rfl
    obtain ⟨claim, hgap'⟩ := run_gap_inContext (t := t)
      (c := { c.startRun with run := c.startRun.run.pushPiece (.word w), parens := c.parens })
      hc.startRun.joinable c.startRun.claim hgap (cs ++ rest)
    exact ⟨claim, cs, hcs, hword.trans (hpush ▸ hgap')⟩
  | @mark m gap ps cs hgap hcs =>
    obtain ⟨claim, hgap'⟩ := run_gap_inContext (t := t)
      (c := { c.startRun with run := c.startRun.run.pushPiece (.mark m), parens := depth })
      hc.startRun.joinable c.startRun.claim hgap (cs ++ rest)
    refine ⟨claim, cs, hcs, ?_⟩
    rw [← hgap', List.cons_append, List.append_assoc]
    change ((t.inContext c).step m).run _ = _
    rw [step_piece hc hfirst hnested hdepth]

/-- Reading a row of pieces. What declarators of a list share counts as read. -/
theorem run_pieces {ps : List Piece} {cs : List Char} (hcs : Spaced ps cs) (hc : c.Declares)
    (hbase : c.startRun.base = []) (hnested : c.parens ≠ 0 → c.base = [])
    (htypedef : c.startRun.run.texts.head? ≠ some "typedef")
    (hfirst : ∀ p, ps.head? = some p → c.Admits t.scope.node.kind p) {depth : Nat}
    (hdepth : ps.foldlM Piece.depth? c.parens = some depth) (rest : List Char) :
    ∃ claim c', c'.startRun =
        { c.startRun with run := ps.foldl Run.pushPiece c.startRun.run, parens := depth, claim } ∧
      (c.startRun = c ∨ ps ≠ [] → c'.startRun = c') ∧
      (t.inContext c).run (cs ++ rest) = (t.inContext c').run rest := by
  induction ps generalizing c cs with
  | nil =>
    cases hcs
    obtain rfl := Option.some.inj hdepth
    refine ⟨c.claim, c, ?_, fun h => h.resolve_right (· rfl), rfl⟩
    unfold Context.startRun
    split <;> rfl
  | cons p ps ih =>
    have hadmits := hfirst p rfl
    rw [List.foldlM_cons] at hdepth
    obtain ⟨depth', hp, hps⟩ := Option.bind_eq_some_iff.mp hdepth
    obtain ⟨claim, cs', hcs', hread⟩ := run_piece hcs hc hnested htypedef hadmits hp hps rest
    let c₁ : Context :=
      { c.startRun with run := c.startRun.run.pushPiece p, parens := depth', claim }
    have hne : c₁.run ≠ [] := Run.pushPiece_ne_nil _ p
    have hstart : c₁.startRun = c₁ := Context.startRun_of_run hne
    have hhead : c₁.startRun.run.texts.head? ≠ some "typedef" := by
      rw [hstart]
      by_cases hnil : c.startRun.run = []
      · cases p with
        | mark m => exact absurd hnil hadmits
        | word w =>
          have hrun : c₁.run = [⟨w.text, false⟩] := by
            change c.startRun.run.pushWord w.text = _
            rw [hnil]
            rfl
          rw [hrun]
          exact fun he => hadmits.2 hnil (Option.some.inj he)
      · exact (Run.head?_texts_pushPiece hnil p).symm ▸ htypedef
    obtain ⟨claim', c', hc', hstarted, hrest⟩ := ih (c := c₁) hcs' (hc.startRun.withRun _ depth' claim)
      (by rw [hstart]; exact hbase) (fun _ => hbase) hhead (fun q _ => Context.admits_of_run hne _ q) hps
    exact ⟨claim', c', by rw [hc', hstart]; rfl, fun _ => hstarted (.inl hstart),
      hread.trans hrest⟩

/-- Reading a row of pieces where no list of declarators is being read. -/
theorem run_pieces_of_base {ps : List Piece} {cs : List Char} (hcs : Spaced ps cs)
    (hc : c.Declares) (hbase : c.base = []) (htypedef : c.run.texts.head? ≠ some "typedef")
    (hfirst : ∀ p, ps.head? = some p → c.Admits t.scope.node.kind p) {depth : Nat}
    (hdepth : ps.foldlM Piece.depth? c.parens = some depth) (rest : List Char) :
    ∃ claim, (t.inContext c).run (cs ++ rest) = (t.inContext
      { c with run := ps.foldl Run.pushPiece c.run, parens := depth, claim }).run rest := by
  have hstart : c.startRun = c := Context.startRun_of_base hbase
  obtain ⟨claim, c', hc', hstarted, hread⟩ := run_pieces hcs hc (by rw [hstart, hbase])
    (fun _ => hbase) (by rwa [hstart]) hfirst hdepth rest
  rw [hstarted (.inl hstart), hstart] at hc'
  exact ⟨claim, hc' ▸ hread⟩

end State

/-! ## Types -/

section

variable {run : Run} {spaced : Bool}

theorem foldl_moreNames (hend : run.EndsInName) (ws : List Name) :
    (ws.map Piece.ofName).foldl Run.pushPiece run = run ++ ws.map (⟨·.text, true⟩) := by
  induction ws generalizing run with
  | nil => simp
  | cons w ws ih =>
    have hpush : run.pushPiece (Piece.ofName w) = run ++ [⟨w.text, true⟩] := hend.pushWord w.text
    rw [List.map_cons, List.foldl_cons, hpush, ih (Run.endsInName_concat run w true)]
    simp

theorem foldl_names (hrun : run.Awaits spaced) (ws : List Name) :
    (ws.map Piece.ofName).foldl Run.pushPiece run = run ++ wordsRun spaced ws := by
  cases ws with
  | nil => simp [wordsRun]
  | cons w ws =>
    have hpush : run.pushPiece (Piece.ofName w) = run ++ [⟨w.text, spaced⟩] := hrun w.text
    rw [List.map_cons, List.foldl_cons, hpush, foldl_moreNames (Run.endsInName_concat run w spaced)]
    simp [wordsRun]

theorem foldl_moreStars (before : Run) (spaced : Bool) (n : Nat) :
    (List.replicate n (Piece.mark '*')).foldl Run.pushPiece (before ++ [⟨"*", spaced⟩]) =
      before ++ [⟨"*", spaced⟩] ++ List.replicate n ⟨"*", false⟩ := by
  induction n generalizing before spaced with
  | zero => simp
  | succ n ih =>
    have hpush : Run.pushPiece (before ++ [⟨"*", spaced⟩]) (.mark '*') = _ := pushMark_star before spaced
    rw [List.replicate_succ, List.foldl_cons, hpush, ih]
    simp [List.replicate_succ]

theorem foldl_stars (hend : run.EndsInName) (n : Nat) :
    (List.replicate n (Piece.mark '*')).foldl Run.pushPiece run = run ++ starRun n := by
  cases n with
  | zero => simp [starRun]
  | succ n =>
    have hpush : run.pushPiece (.mark '*') = run ++ [⟨"*", true⟩] := hend.pushMark "*"
    rw [List.replicate_succ, List.foldl_cons, hpush, foldl_moreStars]
    simp [starRun]

end

theorem depth_names (ws : List Name) (parens : Nat) :
    (ws.map Piece.ofName).foldlM Piece.depth? parens = some parens := by
  induction ws with
  | nil => rfl
  | cons w ws ih => exact ih

theorem depth_stars (n parens : Nat) :
    (List.replicate n (Piece.mark '*')).foldlM Piece.depth? parens = some parens := by
  induction n with
  | zero => rfl
  | succ n ih =>
    have hstar : Piece.depth? parens (.mark '*') = some parens := by
      cases parens with
      | zero => rfl
      | succ n => cases n <;> rfl
    rw [List.replicate_succ, List.foldlM_cons, hstar]
    exact ih

namespace NamedType

variable (t : NamedType) {run : Run} {spaced : Bool}

def pieces : List Piece := t.words.map Piece.ofName ++ List.replicate t.stars (.mark '*')

theorem foldl_pieces (hrun : run.Awaits spaced) :
    t.pieces.foldl Run.pushPiece run = run ++ t.toRun spaced := by
  rw [pieces, List.foldl_append, foldl_names hrun,
    foldl_stars (endsInName_wordsRun t.words_ne_nil run spaced), toRun, List.append_assoc]

theorem depth_pieces (parens : Nat) : t.pieces.foldlM Piece.depth? parens = some parens := by
  rw [pieces, List.foldlM_append, depth_names]
  exact depth_stars _ _

/-- What is collected up to the name declares what the type and the name say. -/
theorem ofRun?_pushWord (name : Name) :
    Declarator.ofRun? ((t.pieces.foldl Run.pushPiece []).pushWord name.text) =
      some { name := name.text, type := t.toRun false, initial := none } := by
  have hequals : "=" ∉ (t.toRun false).texts :=
    t.notMem_texts_toRun (fun w => w.text_ne (by decide)) (by decide) false
  obtain ⟨spaced, hpush⟩ := exists_pushWord (t.toRun false) name.text
  have hclose : Fragment.startsWith ⟨name.text, spaced⟩ ')' = false := by
    unfold Fragment.startsWith
    simpa using fun he =>
      name.notMem (by decide : isWordChar ')' = false) (List.mem_of_mem_head? he)
  have hd := ofRun?_named hequals ⟨name.text, spaced⟩ (name.text_ne (by decide)) hclose [] nofun
  rw [t.foldl_pieces awaits_nil, List.nil_append, hpush, hd, t.closeUp_toRun]
  rfl

end NamedType

end HeaderDocs.Scan
