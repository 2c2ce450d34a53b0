import HeaderDocs.Proofs.Scan.Lexemes
import HeaderDocs.Proofs.Scan.MemberVariables
import HeaderDocs.Proofs.Scan.ParameterLines

/-!
# Member functions

In the body of a record a prototype is recorded at its semicolon with the access that members have
where its name is, with or without a type before the name. In between comes the argument list, in
which only a word for access could change what later members have.

* `Inside.run_uncommented`: a text without comments keeps what its words and marks keep.
* `State.run_argumentText`: reading an argument list in the body of a record.
* `State.run_function`: reading a prototype in the body of a record.
-/
namespace HeaderDocs.Scan

open HeaderDocs.Text

/-! ## Words for access -/

inductive AccessWord
  | publicAccess
  | protectedAccess
  | privateAccess
deriving DecidableEq

namespace AccessWord

def name : AccessWord → Name
  | publicAccess => ⟨"public", by decide +kernel⟩
  | protectedAccess => ⟨"protected", by decide +kernel⟩
  | privateAccess => ⟨"private", by decide +kernel⟩

theorem isAccess_iff {word : String} :
    isAccess word = true ↔ ∃ a : AccessWord, word = a.name.text := by
  simp only [isAccess, Bool.or_eq_true, beq_iff_eq]
  refine ⟨?_, ?_⟩
  · rintro ((rfl | rfl) | rfl)
    · exact ⟨publicAccess, rfl⟩
    · exact ⟨protectedAccess, rfl⟩
    · exact ⟨privateAccess, rfl⟩
  · rintro ⟨a, rfl⟩
    cases a <;> simp [name]

end AccessWord

theorem HasWord.withoutColons {word : String} {text : List Char} (h : HasWord word.toList text) :
    HasWord (withoutColons word).toList text := by
  obtain ⟨before, after, rfl, hbefore, hafter⟩ := h
  let chars := word.toList
  let colons := (chars.reverse.takeWhile (· == ':')).reverse
  have hsplit : chars = dropEndWhile (· == ':') chars ++ colons := by
    refine List.reverse_inj.mp ?_
    rw [dropEndWhile, List.reverse_append, List.reverse_reverse, List.reverse_reverse,
      List.takeWhile_append_dropWhile]
  refine ⟨before, colons ++ after, ?_, hbefore, fun c hc => ?_⟩
  · rw [Scan.withoutColons, toList_onChars]
    simp only [List.append_assoc, List.append_cancel_left_eq]
    rw [← List.append_assoc, ← hsplit]
  · cases hcolons : colons with
    | nil => exact hafter c (by simpa [hcolons] using hc)
    | cons d ds =>
      have hd : d ∈ chars.reverse.takeWhile (· == ':') :=
        List.mem_reverse.mp (show d ∈ colons by rw [hcolons]; exact List.mem_cons_self)
      have hcolon : d = ':' := eq_of_beq (List.all_eq_true.mp List.all_takeWhile d hd)
      obtain rfl : d = c := by simpa [hcolons] using hc
      rw [hcolon]
      decide

/-! ## Texts without comments -/

/-- Whether a comment has begun, or may begin. -/
def Layer.isRemark : Layer → Bool
  | slash | comment _ | lineComment => true
  | _ => false

theorem Layer.isRemark_next {l : Layer} (h : l.isRemark = false) {c : Char} (hc : c ≠ '/') :
    (l.next c).isRemark = false := by
  have hcode : ∀ c, c ≠ '/' → (afterCode c).isRemark = false := by
    intro c hc
    unfold afterCode
    rw [if_neg (by simpa using hc)]
    split
    · rfl
    · split <;> rfl
  have hdirective : ∀ quote c, (afterDirective quote c).isRemark = false := by
    intro quote c
    unfold afterDirective
    split
    · rfl
    · split
      · rfl
      · cases quote <;> dsimp only <;> repeat' split
        all_goals rfl
  cases l with
  | code => exact hcode c hc
  | slash => cases h
  | comment star => cases h
  | lineComment => cases h
  | directive quote => exact hdirective quote c
  | directiveEscape quote => rfl
  | directiveSlash =>
    simp only [next]
    split
    · rfl
    · exact hdirective none c
  | directiveComment star =>
    simp only [next]
    split <;> rfl
  | literal quote =>
    simp only [next]
    repeat' split
    all_goals rfl
  | literalEscape quote => rfl

section

variable {P : List Char → OpenScope → Prop} {enclosing : List OpenScope} {n n' : Nesting} {s : State}
  {text before after : List Char}

/-- The word that a mode has collected is one of the text if it ends where it is. -/
theorem State.wordKeeps (hread : s.mode.ReadAfter before) {c : Char} (after : List Char)
    (hnext : after = [] ∨ ∃ rest, after = c :: rest)
    (hword : ∀ word : String, HasWord word.toList (before ++ after) → ∀ terminator,
      P n.awaited (s.scope.word word terminator)) : s.WordKeeps P n.awaited c := by
  intro word hmode hpart
  rw [hmode] at hread
  obtain ⟨start, rfl, houtside, -⟩ := hread
  refine hword _ ⟨start, after, by rw [String.toList_ofList], fun d hd => ?_, fun d hd => ?_⟩ c
  · exact isWordChar_of_isWordStart (houtside d hd)
  · obtain rfl | ⟨rest, rfl⟩ := hnext
    · cases hd
    · cases hd
      exact isWordChar_of_isWordStart (isWordStart_of_isWordPart hpart)

theorem Inside.commentKeeps (h : Inside P enclosing n s) (hlayer : n.layer.isRemark = false) :
    s.CommentKeeps P n.awaited := by
  intro hcomment
  rw [h.reads.1] at hcomment
  rcases hcomment with ⟨star, he⟩ | he
  all_goals
    rw [he] at hlayer
    cases hlayer

/-- A text without comments keeps what its marks keep, and its words. -/
theorem Inside.run_uncommented (hP : MarkInvariant false P)
    (hword : ∀ {awaited s}, P awaited s → ∀ word : String, HasWord word.toList text →
      ∀ terminator, P awaited (s.word word terminator))
    (h : Inside P enclosing n s) (hlayer : n.layer.isRemark = false)
    (hread : s.mode.ReadAfter before) (htext : text = before ++ after) (hslash : '/' ∉ after)
    (hn : after.foldlM (Nesting.readIn? false) n = some n') :
    Inside P enclosing n' (s.run after) ∧ (s.run after).mode.ReadAfter text := by
  induction after generalizing n s before with
  | nil =>
    cases hn
    rw [List.append_nil] at htext
    exact ⟨h, htext ▸ hread⟩
  | cons c after ih =>
    rw [List.foldlM_cons] at hn
    obtain ⟨m, hm, hn⟩ := Option.bind_eq_some_iff.mp hn
    have hc : c ≠ '/' := fun he => hslash (he ▸ List.mem_cons_self)
    have hkeeps : s.WordKeeps P n.awaited c := State.wordKeeps hread (c :: after)
      (.inr ⟨after, rfl⟩) fun word hhas => hword h.scope word (htext ▸ hhas)
    have hstep := h.stepKept hP hkeeps (h.commentKeeps hlayer) hm
    have hnext : m.layer.isRemark = false := by
      obtain ⟨awaited, -, rfl⟩ := Option.map_eq_some_iff.mp (Nesting.readIn?_eq_some hm).1
      exact Layer.isRemark_next hlayer hc
    exact ih hstep hnext (State.readAfter_step hread c) (by rw [htext, List.append_assoc]; rfl)
      (fun hmem => hslash (List.mem_cons_of_mem _ hmem)) hn

end

/-! ## Argument lists -/

/-- An argument list without comments, none of whose words is one for access. -/
structure ArgumentText where
  chars : List Char
  valid : isArgumentList chars = true
  uncommented : '/' ∉ chars
  unspecified : ∀ a : AccessWord, ¬ HasWord a.name.text.toList chars

namespace State

variable {t : State}

/-- Reading an argument list and the parenthesis behind it. -/
theorem run_argumentText {access : Option String} {claim : Option (List Claim)} {head : Header}
    (hopen : head.argumentsOpen = true) (text : ArgumentText) (rest : List Char) :
    ∃ arguments comment claim',
      (t.inContext { access, parens := 1, claim, header := some head }).run
          (text.chars ++ ')' :: rest) =
        (t.inContext
          { access, comment, claim := claim'
            header := some { head.extend arguments with argumentsOpen := false } }).run rest := by
  let P := OpenScope.ListsArguments t.scope access claim head
  have hmarks : MarkInvariant false P :=
    OpenScope.ListsArguments.markInvariant t.scope access claim head
  have hword : ∀ {awaited s}, P awaited s → ∀ word : String, HasWord word.toList text.chars →
      ∀ terminator, P awaited (s.word word terminator) := by
    intro awaited s h word hhas terminator
    refine OpenScope.ListsArguments.word h word terminator fun _ => ?_
    rw [Bool.eq_false_iff]
    intro he
    obtain ⟨a, ha⟩ := AccessWord.isAccess_iff.mp he
    exact text.unspecified a (ha ▸ hhas.withoutColons)
  let s : State := t.inContext { access, parens := 1, claim, header := some head }
  obtain ⟨n, hn, hclosed⟩ := (Option.any_eq_true _ _).mp text.valid
  simp only [Nesting.isClosed, Bool.and_eq_true, Bool.or_eq_true, beq_iff_eq,
    List.isEmpty_iff] at hclosed
  obtain ⟨hlayer, hawaited⟩ := hclosed
  have hin : Inside P t.enclosing {} s :=
    ⟨readsIn_code rfl, rfl, _, rfl, [], [], none, none, false, claim, .inr (.inr rfl), by
      rw [head.extend_nil]; rfl⟩
  obtain ⟨hinside, hread⟩ := hin.run_uncommented hmarks hword rfl
    (show s.mode.ReadAfter [] by intro d hd; cases hd) rfl text.uncommented hn
  have hkeeps : (s.run text.chars).WordKeeps P n.awaited ')' := State.wordKeeps hread []
    (.inl rfl) fun word hhas => hword hinside.scope word (by rwa [List.append_nil] at hhas)
  obtain ⟨u, hstep, hplain, henclosing, hscope⟩ :=
    hinside.step_bracketKept hmarks hlayer hkeeps (by decide)
  rw [hawaited] at hscope
  obtain ⟨c, hbase, hc⟩ := hscope
  obtain ⟨arguments, comment, claim', hclose⟩ := hc.closeParen_outermost hopen
  refine ⟨arguments, comment, claim', ?_⟩
  obtain ⟨mode, scope, enclosing⟩ := u
  cases hplain
  cases henclosing
  cases hbase
  rw [run_append]
  change ((s.run text.chars).step ')').run rest = _
  rw [hstep]
  exact congrArg (fun c => (t.inContext c).run rest) hclose

/-- In a record a semicolon records the function whose header has been read, typed or not. -/
theorem step_semicolon_function (hrecord : t.scope.node.kind.isRecord = true) {h : Header}
    (hhome : h.home = none) (access comment : Option String) (claim : Option (List Claim)) :
    ∃ s claim', t.scope.Gains h.node s ∧
      (t.inContext { access, comment, claim, header := some h }).step ';' =
        (t.inScope s).inContext { access, claim := claim' } := by
  let s : OpenScope := { t.scope with context := { access, comment, claim, header := some h } }
  have hend : s.endHeader = s.commitHeader h := by
    simp [OpenScope.endHeader, s, hrecord]
  have hgains : s.Gains h.node (s.commitHeader h) := by
    have hcommit := OpenScope.gains_commit s h.node
    unfold OpenScope.commitHeader
    rw [hhome]
    dsimp only
    generalize s.commit h.node = u at hcommit ⊢
    exact ⟨hcommit.node, hcommit.origin, hcommit.attached, hcommit.suspended⟩
  obtain ⟨-, record, enumeration, claim', hcontext⟩ := OpenScope.context_commitHeader s h
  refine ⟨s.commitHeader h, claim',
    ⟨hgains.node, hgains.origin, hgains.attached, hgains.suspended⟩, ?_⟩
  have hrun : (s.commitHeader h).context.run = [] := congrArg (·.run) hcontext
  have hsemicolon : s.semicolon =
      { s.commitHeader h with context := { access, claim := claim' } } := by
    unfold OpenScope.semicolon
    rw [hend, OpenScope.endRun_of_nil hrun]
    generalize s.commitHeader h = u at hcontext
    obtain ⟨node, origin, attached, context, suspended, declared, events⟩ := u
    cases hcontext
    rfl
  exact congrArg (fun scope => ({ t with mode := .plain, scope } : State)) hsemicolon

end State

/-! ## Prototypes -/

/-- A prototype as it stands in the body of a record. -/
structure MemberFunction where
  type : Option NamedType
  name : Name
  arguments : ArgumentText
  leads : (type.elim [name] (·.words)).head?.map (·.text) ∉
    [some "typedef", some "extern", some "public", some "protected", some "private"]

namespace MemberFunction

variable (f : MemberFunction)

/-- How a prototype is written: the parenthesis stands directly behind its name. -/
def Spelled (cs : List Char) : Prop :=
  ∃ typed between, f.type.elim (typed = []) (fun type => Spaced type.pieces typed) ∧
    IsGap between ∧ cs = typed ++ (f.name.text.toList ++ '(' :: (f.arguments.chars ++ ')' ::
      (between ++ [';'])))

/-- The fragments that are collected before the name. -/
def typeRun : Run := f.type.elim [] (·.toRun false)

end MemberFunction

namespace State

variable {t : State}

/-- A prototype up to the parenthesis behind its name. -/
theorem run_functionHead (hrecord : t.scope.node.kind.isRecord = true) (f : MemberFunction)
    {typed : List Char} (htyped : f.type.elim (typed = []) fun type => Spaced type.pieces typed)
    (access : Option String) (joinable : Bool) (claim : Option (List Claim)) (rest : List Char) :
    ∃ claim', (t.inContext { access, joinable, claim }).run
        (typed ++ (f.name.text.toList ++ '(' :: rest)) =
      (t.inContext
        { access, parens := 1, claim := claim'
          header := some (({ access, run := f.typeRun } : Context).headerOf f.name) }).run rest := by
  have hkind : t.scope.node.kind ≠ .root := fun he => by rw [he] at hrecord; cases hrecord
  have hleads := f.leads
  unfold MemberFunction.typeRun
  cases htype : f.type with
  | none =>
    rw [htype] at htyped hleads
    obtain rfl : typed = [] := htyped
    refine ⟨claim, (run_name_joinable (t := t) (c := { access, claim }) joinable f.name _).trans ?_⟩
    refine run_functionName (c := { access, claim }) ⟨rfl, rfl, rfl⟩ rfl rfl f.name (fun _ _ => ?_)
      List.not_mem_nil nofun rfl rest
    rw [f.name.withoutColons_text]
    simp only [Option.elim, List.head?_cons, Option.map_some, List.mem_cons, Option.some.injEq,
      List.not_mem_nil, or_false, not_or] at hleads
    simp [isAccess, hleads]
  | some type =>
    rw [htype] at htyped hleads
    obtain ⟨first, words, hwords⟩ := List.exists_cons_of_ne_nil type.words_ne_nil
    have hfirst : type.words.head?.map (·.text) = some first.text := by rw [hwords]; rfl
    rw [Option.elim, hfirst] at hleads
    simp only [List.mem_cons, Option.some.injEq, List.not_mem_nil, or_false, not_or] at hleads
    obtain ⟨claim', -, hread⟩ := run_type (t := t) (c := { access, claim }) htyped ⟨rfl, rfl, rfl⟩
      (fun w hw _ _ => by
        rw [hwords] at hw
        obtain rfl : first = w := Option.some.inj hw
        rw [first.withoutColons_text]
        simp [isAccess, hleads])
      (f.name.text.toList ++ '(' :: rest)
    have hrun : type.pieces.foldl Run.pushPiece [] = type.toRun false :=
      type.foldl_pieces awaits_nil
    have hhead : (type.toRun false).texts.head? = some first.text :=
      (type.head?_texts_toRun false).trans hfirst
    rw [hrun] at hread
    refine ⟨claim', (run_pieces_joinable (c := { access, claim }) htyped joinable _).trans
      (hread.trans ?_)⟩
    exact run_functionName (c := { access, run := type.toRun false, claim := claim' })
      ⟨rfl, rfl, rfl⟩ rfl rfl f.name (fun he => absurd he (type.toRun_ne_nil false))
      (type.notMem_texts_toRun (fun w => w.text_ne (by decide)) (by decide) false)
      (by simpa [hhead] using hleads.1) (by simp [hhead, isLeftOut, hleads, hkind]) rest

/-- A prototype is recorded with the access that members have. -/
theorem run_function (hrecord : t.scope.node.kind.isRecord = true) (f : MemberFunction)
    {cs : List Char} (hcs : f.Spelled cs) (access : Option String) (joinable : Bool)
    (claim : Option (List Claim)) (rest : List Char) :
    ∃ arguments s claim',
      t.scope.Gains
        ((({ access, run := f.typeRun } : Context).headerOf f.name).extend arguments).node s ∧
      (t.inContext { access, joinable, claim }).run (cs ++ rest) =
        ((t.inScope s).inContext { access, claim := claim' }).run rest := by
  obtain ⟨typed, between, htyped, hbetween, rfl⟩ := hcs
  obtain ⟨claim₁, hhead⟩ := run_functionHead hrecord f htyped access joinable claim
    (f.arguments.chars ++ ')' :: (between ++ ';' :: rest))
  let h : Header := ({ access, run := f.typeRun } : Context).headerOf f.name
  obtain ⟨arguments, comment, claim₂, harguments⟩ := run_argumentText (t := t)
    (show h.argumentsOpen = true from rfl) f.arguments (between ++ ';' :: rest)
  obtain ⟨claim₃, hgap⟩ := run_gap_inContext (t := t)
    (c := { access, comment, header := some { h.extend arguments with argumentsOpen := false } }) rfl
    claim₂ hbetween (';' :: rest)
  obtain ⟨s, claim', hgains, hstep⟩ := step_semicolon_function (t := t) hrecord
    (h := { h.extend arguments with argumentsOpen := false }) rfl access comment claim₃
  refine ⟨arguments, s, claim', hgains, ?_⟩
  have hsplit : typed ++ (f.name.text.toList ++ '(' :: (f.arguments.chars ++ ')' ::
      (between ++ [';']))) ++ rest = typed ++ (f.name.text.toList ++ '(' ::
        (f.arguments.chars ++ ')' :: (between ++ ';' :: rest))) := by simp
  rw [hsplit]
  refine hhead.trans (harguments.trans (hgap.trans ?_))
  exact congrArg (State.run · rest) hstep

end State

end HeaderDocs.Scan
