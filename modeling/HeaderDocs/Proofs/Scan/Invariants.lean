import HeaderDocs.Proofs.Scan.Nesting
import HeaderDocs.Proofs.Scan.Tidy

/-!
# What a text leaves alone

Between brackets that open or close a scope, a text does to a scope what its words, marks, comments and
literals do, one after the other, and where each of them ends is a matter of the text alone. So a
property of scopes that all of these keep (`Invariant`) is kept by every text in which the brackets
nest. The property may depend on the closing brackets that are awaited.

* `Inside.stepKept`: a character keeps what its marks keep, if the word or comment that it ends does.
* `Inside.run`: a text keeps an invariant.
* `Inside.step_bracket`: a bracket behind the text is read in plain mode.
-/
namespace HeaderDocs.Scan

open HeaderDocs.Text

/-! ## Invariants -/

/-- What every mark does first: a line comment does not go on behind it. -/
def Context.interrupted (c : Context) : Context := { c with joinable := false }

/-- A property of scopes that the marks of a text and the ends of its lines keep, where `awaited` are
the closing brackets that are awaited. If the text has no `blocks`, there is neither a brace nor a
semicolon in its code. -/
structure MarkInvariant (blocks : Bool) (P : List Char → OpenScope → Prop) : Prop where
  interrupted : ∀ {awaited s}, P awaited s → P awaited (s.update .interrupted)
  endLine : ∀ {awaited s}, P awaited s → P awaited (s.update .endLine)
  pushMark : ∀ {awaited s}, P awaited s → ∀ text, P awaited (s.update (·.pushMark text))
  pushFragment : ∀ {awaited s}, P awaited s →
    ∀ text spaced, P awaited (s.update (·.pushFragment text spaced))
  pushIfStarted : ∀ {awaited s}, P awaited s →
    ∀ text spaced, P awaited (s.update (·.pushIfStarted text spaced))
  comma : ∀ {awaited s}, P awaited s → P awaited (s.update .comma)
  equals : ∀ {awaited s}, P awaited s → P awaited (s.update .equals)
  openParen : ∀ {awaited s}, P awaited s → P (')' :: awaited) (s.update .openParen)
  closeParen : ∀ {awaited s}, P (')' :: awaited) s → P awaited (s.update .closeParen)
  semicolon : blocks = true → ∀ {awaited s}, P awaited s → P awaited s.semicolon
  openBrace : blocks = true → ∀ {awaited} {s : State}, P awaited s.scope →
    P ('\x7d' :: awaited) s.openBrace.scope ∧ s.openBrace.enclosing = s.enclosing
  closeBrace : blocks = true → ∀ {awaited} {s : State}, P ('\x7d' :: awaited) s.scope →
    P awaited s.closeBrace.scope ∧ s.closeBrace.enclosing = s.enclosing

/-- A property of scopes that all parts of a text keep. -/
structure Invariant (blocks : Bool) (P : List Char → OpenScope → Prop) : Prop
    extends MarkInvariant blocks P where
  word : ∀ {awaited s}, P awaited s → ∀ word terminator, P awaited (s.word word terminator)
  takeComment : ∀ {awaited s}, P awaited s → ∀ text line, P awaited (s.takeComment text line)

/-- Whether a character ends a declaration, or begins or ends a block. -/
def isBlockMark (c : Char) : Bool := c == '\x7b' || c == '\x7d' || c == ';'

/-- Reads a character of a text with or without blocks. -/
def Nesting.readIn? (blocks : Bool) (n : Nesting) (c : Char) : Option Nesting :=
  if n.layer.isCode c && !blocks && isBlockMark c then none else n.read? c

theorem Nesting.readIn?_true : Nesting.readIn? true = Nesting.read? := by
  funext n c
  simp [Nesting.readIn?]

theorem Nesting.readIn?_eq_some {blocks : Bool} {n n' : Nesting} {c : Char}
    (h : n.readIn? blocks c = some n') :
    n.read? c = some n' ∧ (n.layer.isCode c = true → isBlockMark c = true → blocks = true) := by
  unfold Nesting.readIn? at h
  split at h
  · cases h
  · rename_i hnot
    refine ⟨h, fun hcode hmark => ?_⟩
    simpa [hcode, hmark] using hnot

/-- A class of characters without brackets opens and closes nothing. -/
theorem Nesting.bracket?_eq_self {p : Char → Bool}
    (hp : ['\x7b', '\x7d', '(', ')'].all (!p ·) = true) {c : Char} (h : p c = true)
    (awaited : List Char) : Nesting.bracket? awaited c = some awaited := by
  have hc := notMem_of_class hp h
  simp only [List.mem_cons, List.not_mem_nil, or_false, not_or] at hc
  simp [Nesting.bracket?, hc]

/-- A closing bracket that may come is the innermost one that is awaited. -/
theorem Nesting.bracket?_closing {awaited rest : List Char} {c : Char} (hc : c ∈ ['\x7d', ')'])
    (h : Nesting.bracket? awaited c = some rest) : awaited = c :: rest := by
  simp only [List.mem_cons, List.not_mem_nil, or_false] at hc
  cases awaited with
  | nil => obtain rfl | rfl := hc <;> cases h
  | cons d awaited =>
    by_cases hd : d = c
    · subst hd
      obtain rfl | rfl := hc <;> cases h <;> rfl
    · obtain rfl | rfl := hc <;> simp [Nesting.bracket?, Ne.symm hd] at h

theorem not_isWordPart_bracket (parens : Nat) :
    ['\x7b', '\x7d', '(', ')'].all (!State.isWordPart parens ·) = true := by
  simp only [State.isWordPart]
  simp
  decide

/-! ## Reading a text -/

/-- What a state in a text is that keeps an invariant. -/
structure Inside (P : List Char → OpenScope → Prop) (enclosing : List OpenScope) (n : Nesting)
    (s : State) : Prop where
  reads : s.ReadsIn n.layer
  enclosing : s.enclosing = enclosing
  scope : P n.awaited s.scope

/-- The word that a mode reads keeps a property if it ends at a character. -/
def State.WordKeeps (P : List Char → OpenScope → Prop) (awaited : List Char) (s : State)
    (terminator : Char) : Prop :=
  ∀ word, s.mode = .word word → State.isWordPart s.scope.context.parens terminator = false →
    P awaited (s.scope.word (String.ofList word.reverse) terminator)

/-- The comment that a mode reads keeps a property. -/
def State.CommentKeeps (P : List Char → OpenScope → Prop) (awaited : List Char) (s : State) : Prop :=
  (∃ star, s.mode.layer = .comment star) ∨ s.mode.layer = .lineComment →
    ∀ text line, P awaited (s.scope.takeComment text line)

namespace MarkInvariant

variable {blocks : Bool} {P : List Char → OpenScope → Prop} {s : State} {awaited rest : List Char}

theorem mark (hP : MarkInvariant blocks P) (h : P awaited s.scope) {c : Char}
    (hb : Nesting.bracket? awaited c = some rest) (hblocks : isBlockMark c = true → blocks = true) :
    P rest (s.mark c).scope ∧ (s.mark c).enclosing = s.enclosing := by
  have hsame : c ∉ ['\x7b', '\x7d', '(', ')'] → P rest s.scope := by
    intro hc
    simp only [List.mem_cons, List.not_mem_nil, or_false, not_or] at hc
    simp [Nesting.bracket?, hc] at hb
    exact hb ▸ h
  refine State.mark_cases c ?begins ?openBrace ?closeBrace ?openParen ?closeParen ?semicolon ?comma
    ?equals ?sign ?ampersand ?colon ?other
  case begins =>
    intro mode hmode
    refine ⟨hsame ?_, rfl⟩
    cases hmode with
    | directive hc => exact hc ▸ (by decide)
    | literal hc => exact hc.elim (fun hc => hc ▸ (by decide)) fun hc => hc ▸ (by decide)
    | word hc => exact notMem_of_class (by decide) hc
  case openBrace =>
    rintro rfl
    cases hb
    exact hP.openBrace (hblocks rfl) h
  case closeBrace =>
    rintro rfl
    exact hP.closeBrace (hblocks rfl) (Nesting.bracket?_closing (by decide) hb ▸ h)
  case openParen =>
    rintro rfl
    cases hb
    exact ⟨hP.openParen h, rfl⟩
  case closeParen =>
    rintro rfl
    exact ⟨hP.closeParen (Nesting.bracket?_closing (by decide) hb ▸ h), rfl⟩
  case semicolon =>
    rintro rfl
    exact ⟨hP.semicolon (hblocks rfl) (hsame (by decide)), rfl⟩
  case comma =>
    rintro rfl
    exact ⟨hP.comma (hsame (by decide)), rfl⟩
  case equals =>
    rintro rfl
    exact ⟨hP.equals (hsame (by decide)), rfl⟩
  case sign => rintro (rfl | rfl | rfl) <;> exact ⟨hP.pushMark (hsame (by decide)) _, rfl⟩
  case ampersand =>
    rintro rfl
    exact ⟨hP.pushFragment (hsame (by decide)) _ _, rfl⟩
  case colon =>
    rintro rfl
    exact ⟨hP.pushIfStarted (hsame (by decide)) _ _, rfl⟩
  case other =>
    have hbrackets : ['\x7b', '\x7d', '(', ')'] ⊆ State.marks := by decide
    exact fun hmarks _ => ⟨hsame fun hc => hmarks (hbrackets hc), rfl⟩

theorem plain (hP : MarkInvariant blocks P) (h : P awaited s.scope) {c : Char}
    (hb : Nesting.bracket? awaited c = some rest) (hblocks : isBlockMark c = true → blocks = true) :
    P rest (s.plain c).scope ∧ (s.plain c).enclosing = s.enclosing := by
  refine State.plain_cases c ?newline ?space ?slash ?mark
  case newline =>
    rintro rfl
    cases hb
    exact ⟨hP.endLine (hP.interrupted h), rfl⟩
  case space =>
    intro hc
    rw [Nesting.bracket?_eq_self (by decide) hc] at hb
    cases hb
    exact ⟨h, rfl⟩
  case slash =>
    rintro rfl
    cases hb
    exact ⟨h, rfl⟩
  case mark =>
    exact fun _ _ => hP.mark (s := s.update (·.update .interrupted)) (hP.interrupted h) hb hblocks

end MarkInvariant

namespace Inside

variable {blocks : Bool} {P : List Char → OpenScope → Prop} {enclosing : List OpenScope}
  {n n' : Nesting} {s : State}

theorem scope_step (hP : MarkInvariant blocks P) (h : Inside P enclosing n s)
    {c : Char} (hword : s.WordKeeps P n.awaited c) (hcomment : s.CommentKeeps P n.awaited)
    (hc : n.readIn? blocks c = some n') :
    P n'.awaited (s.step c).scope ∧ (s.step c).enclosing = s.enclosing := by
  obtain ⟨⟨hlayer, -⟩, -, hw⟩ := h
  obtain ⟨hc, hblocks⟩ := Nesting.readIn?_eq_some hc
  obtain ⟨rest, hrest, rfl⟩ := Option.map_eq_some_iff.mp hc
  dsimp only
  obtain ⟨a, ha, hstep⟩ := s.step_acts c
  rw [← hlayer, ha.isCode] at hrest hblocks
  rw [hstep]
  have hplain : a.isCode = true → ∀ t : State, P n.awaited t.scope → t.enclosing = s.enclosing →
      P rest (t.plain c).scope ∧ (t.plain c).enclosing = s.enclosing := by
    intro hcode t ht he
    rw [if_pos hcode] at hrest
    obtain ⟨hs, he'⟩ := hP.plain ht hrest (hblocks hcode)
    exact ⟨hs, he'.trans he⟩
  -- outside of the code, and within a word, no bracket is read
  have hout : a.isCode = false → n.awaited = rest := by
    intro hcode
    rw [if_neg (by simp [hcode])] at hrest
    exact Option.some.inj hrest
  cases a with
  | turn mode =>
    refine ⟨?_, rfl⟩
    cases ha with
    | part _ hpart =>
      rw [if_pos (by rfl), Nesting.bracket?_eq_self (not_isWordPart_bracket _) hpart] at hrest
      exact Option.some.inj hrest ▸ hw
    | outside _ hnext => exact hout (beq_eq_false_iff_ne.mpr hnext.layer_ne) ▸ hw
  | code => exact hplain rfl s hw rfl
  | slash => exact hplain rfl _ (hP.pushMark (hP.interrupted hw) "/") rfl
  | word text =>
    cases ha with | word hmode hpart
    exact hplain rfl _ (hword text hmode hpart) rfl
  | blockComment text =>
    refine ⟨hout rfl ▸ hcomment (.inl ?_) _ _, rfl⟩
    cases ha with | block hmode | star hmode => exact ⟨_, congrArg Mode.layer hmode⟩
  | lineComment text =>
    cases ha with | line hmode
    exact ⟨hP.endLine (hout rfl ▸ hcomment (.inr (congrArg Mode.layer hmode)) _ _), rfl⟩
  | directive => exact ⟨hP.endLine (hout rfl ▸ hw), rfl⟩
  | literal text => exact ⟨hP.pushIfStarted (hout rfl ▸ hw) _ _, rfl⟩

theorem stepKept (hP : MarkInvariant blocks P) (h : Inside P enclosing n s)
    {c : Char} (hword : s.WordKeeps P n.awaited c) (hcomment : s.CommentKeeps P n.awaited)
    (hc : n.readIn? blocks c = some n') : Inside P enclosing n' (s.step c) := by
  obtain ⟨hscope, henclosing⟩ := h.scope_step hP hword hcomment hc
  refine ⟨?_, henclosing.trans h.enclosing, hscope⟩
  obtain ⟨awaited, -, rfl⟩ := Option.map_eq_some_iff.mp (Nesting.readIn?_eq_some hc).1
  exact State.layer_step h.reads c

theorem step (hP : Invariant blocks P) (h : Inside P enclosing n s) {c : Char}
    (hc : n.readIn? blocks c = some n') : Inside P enclosing n' (s.step c) :=
  h.stepKept hP.toMarkInvariant (fun _ _ _ => hP.word h.scope _ _)
    (fun _ => hP.takeComment h.scope) hc

theorem run (hP : Invariant blocks P) (h : Inside P enclosing n s) {text : List Char}
    (ht : text.foldlM (Nesting.readIn? blocks) n = some n') : Inside P enclosing n' (s.run text) :=
  State.run_beside (P := Inside P enclosing) (fun h hc => h.step hP hc) h ht

/-- A bracket of the code is read in plain mode. -/
theorem step_bracketKept (hP : MarkInvariant blocks P) (h : Inside P enclosing n s)
    (hlayer : n.layer = .code ∨ n.layer = .slash) {c : Char} (hword : s.WordKeeps P n.awaited c)
    (hc : c ∈ ['\x7b', '\x7d', '(', ')']) :
    ∃ t : State, s.step c = t.plain c ∧ t.mode = .plain ∧ t.enclosing = enclosing ∧
      P n.awaited t.scope := by
  obtain ⟨⟨hmode, -⟩, henclosing, hw⟩ := h
  have hpart : State.isWordPart s.scope.context.parens c = false := by
    simpa using List.all_eq_true.mp (not_isWordPart_bracket s.scope.context.parens) c hc
  have hcode : s.mode.layer.isCode c = true := by
    simp only [List.mem_cons, List.not_mem_nil, or_false] at hc
    rw [hmode]
    obtain hl | hl := hlayer <;> obtain rfl | rfl | rfl | rfl := hc <;> rw [hl] <;> rfl
  obtain ⟨t, ht, hm, hstep⟩ := State.step_of_isCode hcode hpart
  refine ⟨t, hstep, hm, ?_⟩
  cases ht with
  | code => exact ⟨henclosing, hw⟩
  | slash => exact ⟨henclosing, hP.pushMark (hP.interrupted hw) "/"⟩
  | word hword' => exact ⟨henclosing, hword _ hword' hpart⟩

theorem step_bracket (hP : Invariant blocks P) (h : Inside P enclosing n s)
    (hlayer : n.layer = .code ∨ n.layer = .slash) {c : Char} (hc : c ∈ ['\x7b', '\x7d', '(', ')']) :
    ∃ t : State, s.step c = t.plain c ∧ t.mode = .plain ∧ t.enclosing = enclosing ∧
      P n.awaited t.scope :=
  h.step_bracketKept hP.toMarkInvariant hlayer (fun _ _ _ => hP.word h.scope _ _) hc

end Inside

end HeaderDocs.Scan
