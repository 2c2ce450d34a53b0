import HeaderDocs.Scan.Source

/-!
# How the brackets of a source nest

Braces and parentheses count only outside of comments, literals and directives. A `Layer` is what a
character belongs to as far as that is concerned: it forgets the texts that a `Mode` collects, and
words, which hold no brackets. `Nesting` adds the closing brackets that are awaited, and `isBalanced`
says of a text that every bracket in it is closed again, in the right order.

An `Action` is what a character does to the scopes. Most characters outside of the code only change
the mode, and a property of the scopes has to be shown for the other actions alone.

* `mark_cases`, `plain_cases`: what a character of the code does.
* `step_acts`: every character acts in one of these ways, and `Acts` says when.
* `run_keeps`, `run_beside`: what a text keeps follows from what its characters keep.
* `layer_step`: reading a character takes the scanner from layer to layer.
* `isBalanced_iff`: a balanced text, read from code, ends in code with no bracket open.
-/
namespace HeaderDocs.Scan

/-! ## Layers -/

/-- What the next character of a source belongs to, as far as brackets are concerned. -/
inductive Layer where
  | code
  /-- After a slash in code that may open a comment. -/
  | slash
  /-- In a block comment; `star` if the last character was a star. -/
  | comment (star : Bool)
  | lineComment
  /-- In a directive, perhaps in a literal with the given quote. -/
  | directive (quote : Option Char)
  | directiveEscape (quote : Option Char)
  | directiveSlash
  | directiveComment (star : Bool)
  | literal (quote : Char)
  | literalEscape (quote : Char)
deriving DecidableEq, Repr

namespace Layer

def afterCode (c : Char) : Layer :=
  if c == '/' then slash
  else if c == '#' then directive none
  else if c == '"' || c == '\'' then literal c
  else code

def afterDirective (quote : Option Char) (c : Char) : Layer :=
  if c == '\n' then code
  else if c == '\\' then directiveEscape quote
  else
    match quote with
    | some q => if c == q then directive none else directive quote
    | none =>
      if c == '"' || c == '\'' then directive (some c)
      else if c == '/' then directiveSlash
      else directive none

/-- What a character leads to. -/
def next : Layer → Char → Layer
  | code, c => afterCode c
  | slash, c => if c == '*' then comment false else if c == '/' then lineComment else afterCode c
  | comment star, c => if star && c == '/' then code else comment (c == '*')
  | lineComment, c => if c == '\n' then code else lineComment
  | directive quote, c => afterDirective quote c
  | directiveEscape quote, _ => directive quote
  | directiveSlash, c => if c == '*' then directiveComment false else afterDirective none c
  | directiveComment star, c => if star && c == '/' then directive none else directiveComment (c == '*')
  | literal quote, c =>
    if c == '\\' then literalEscape quote else if c == quote then code else literal quote
  | literalEscape quote, _ => literal quote

/-- Whether a character is part of the code. After a slash it is, unless it opens a comment. -/
def isCode : Layer → Char → Bool
  | code, _ => true
  | slash, c => c != '*' && c != '/'
  | _, _ => false

end Layer

/-! ## Brackets -/

/-- The layer of the next character, and the closing brackets that are awaited, innermost first. -/
structure Nesting where
  layer : Layer := .code
  awaited : List Char := []
deriving DecidableEq, Repr

namespace Nesting

/-- What a bracket of the code does to the closing brackets that are awaited. Only the innermost one
may come. -/
def bracket? (awaited : List Char) (c : Char) : Option (List Char) :=
  if c == '\x7b' then some ('\x7d' :: awaited)
  else if c == '(' then some (')' :: awaited)
  else if c == '\x7d' || c == ')' then
    match awaited with
    | d :: rest => if c == d then some rest else none
    | [] => none
  else some awaited

/-- Reads a character. -/
def read? (n : Nesting) (c : Char) : Option Nesting :=
  (if n.layer.isCode c then bracket? n.awaited c else some n.awaited).map fun awaited =>
    { layer := n.layer.next c, awaited }

/-- Whether a text that began as code can end here: no comment, literal or directive is open, and no
bracket. -/
def isClosed (n : Nesting) : Bool := (n.layer == .code || n.layer == .slash) && n.awaited.isEmpty

end Nesting

/-- Whether all brackets of a text are closed again, and all comments, literals and directives are
complete. -/
def isBalanced (text : List Char) : Bool := (text.foldlM Nesting.read? {}).any (·.isClosed)

theorem isBalanced_iff {text : List Char} :
    isBalanced text = true ↔
      ∃ n, text.foldlM Nesting.read? {} = some n ∧ (n.layer = .code ∨ n.layer = .slash) ∧
        n.awaited = [] := by
  unfold isBalanced
  cases text.foldlM Nesting.read? {} with
  | none => simp
  | some n => simp [Nesting.isClosed]

example : isBalanced "if (s == '(') \x7b t = \"\x7d\"; \x7d // \x7b\n".toList = true := by decide +kernel

/-! ## The layer of a mode -/

theorem notMem_of_class {p : Char → Bool} {marks : List Char} (hp : marks.all (!p ·) = true)
    {c : Char} (h : p c = true) : c ∉ marks := by
  intro hc
  have hpc := List.all_eq_true.mp hp c hc
  rw [h] at hpc
  cases hpc

namespace Mode

/-- The layer that a mode reads in. -/
def layer : Mode → Layer
  | plain | word _ => .code
  | slash => .slash
  | directive quote => .directive quote
  | directiveEscape quote => .directiveEscape quote
  | directiveSlash => .directiveSlash
  | directiveComment star => .directiveComment star
  | blockComment text _ => .comment (text.head? == some '*')
  | blockStar _ => .comment true
  | lineComment _ => .lineComment
  | literal quote _ => .literal quote
  | literalEscape quote _ => .literalEscape quote

/-- The text of the comment that is being read, backwards. -/
def comment : Mode → List Char
  | blockComment text _ | blockStar text | lineComment text => text
  | _ => []

/-- The literal that is being read, backwards, with its quote. -/
def literal? : Mode → Option (Char × List Char)
  | literal quote text | literalEscape quote text => some (quote, text)
  | _ => none

/-- The text of a comment does not end in a star where its line holds only decoration. -/
def Proper : Mode → Prop
  | blockComment text true => text.head? ≠ some '*'
  | blockStar text => text.head? ≠ some '*'
  | _ => True

end Mode

/-! ## Characters of the code -/

/-- The modes that a mark of the code leads to. -/
inductive Mode.BeginsWith (c : Char) : Mode → Prop
  | directive (hc : c = '#') : BeginsWith c (.directive none)
  | literal (hc : c = '"' ∨ c = '\'') : BeginsWith c (.literal c [c])
  | word (hc : State.isWordStart c = true) : BeginsWith c (.word [c])

namespace State

open HeaderDocs.Text

/-- The characters that a mark of the code can be, but for those that start words. -/
def marks : List Char :=
  ['#', '"', '\'', '\x7b', '\x7d', '(', ')', ';', ',', '=', '*', '+', '-', '&', ':']

/-- What a mark of the code does. -/
@[elab_as_elim]
theorem mark_cases {motive : (State → State) → Prop} (c : Char)
    (begins : ∀ mode, Mode.BeginsWith c mode → motive (enter mode))
    (openBrace : c = '\x7b' → motive State.openBrace)
    (closeBrace : c = '\x7d' → motive State.closeBrace)
    (openParen : c = '(' → motive (·.update (·.update .openParen)))
    (closeParen : c = ')' → motive (·.update (·.update .closeParen)))
    (semicolon : c = ';' → motive (·.update .semicolon))
    (comma : c = ',' → motive (·.update (·.update .comma)))
    (equals : c = '=' → motive (·.update (·.update .equals)))
    (sign : c = '*' ∨ c = '+' ∨ c = '-' → motive (·.update (·.update (·.pushMark c.toString))))
    (ampersand : c = '&' → motive (·.update (·.update (·.pushFragment "&" true))))
    (colon : c = ':' → motive (·.update (·.update (·.pushIfStarted ":" true))))
    (other : c ∉ marks → isWordStart c = false → motive fun s => s) : motive (mark c) := by
  have hmark : mark c = fun s => mark c s := rfl
  rw [hmark]
  unfold State.mark
  split
  · exact begins _ (.directive rfl)
  · exact begins _ (.literal (.inl rfl))
  · exact begins _ (.literal (.inr rfl))
  · exact openBrace rfl
  · exact closeBrace rfl
  · exact openParen rfl
  · exact closeParen rfl
  · exact semicolon rfl
  · exact comma rfl
  · exact equals rfl
  · exact sign (.inl rfl)
  · exact sign (.inr (.inl rfl))
  · exact sign (.inr (.inr rfl))
  · exact ampersand rfl
  · exact colon rfl
  · have hmarks : c ∉ marks := by
      simp only [marks, List.mem_cons, List.not_mem_nil, or_false, not_or]
      and_intros <;> assumption
    cases hstart : isWordStart c with
    | true => exact begins _ (.word hstart)
    | false => exact other hmarks hstart

/-- What a character does outside of words, literals, comments and directives. -/
@[elab_as_elim]
theorem plain_cases {motive : (State → State) → Prop} (c : Char)
    (newline : c = '\n' →
      motive (·.update (·.update fun c => { c with claim := none, joinable := false })))
    (space : isSpace c = true → motive fun s => s)
    (slash : c = '/' → motive (enter .slash))
    (mark : isSpace c = false → c ≠ '/' →
      motive fun s => (s.update (·.update ({ · with joinable := false }))).mark c) :
    motive (plain c) := by
  have hplain : plain c = fun s => plain c s := rfl
  rw [hplain]
  unfold State.plain
  split
  · rename_i hc
    exact newline (eq_of_beq hc)
  · split
    · rename_i hc
      exact space hc
    · rename_i hspace
      split
      · rename_i hc
        exact slash (eq_of_beq hc)
      · rename_i hc
        exact mark (Bool.eq_false_iff.mpr hspace) (by simpa using hc)

end State

/-! ## What a character does -/

/-- What a character does to a state. It may be read as code, perhaps behind a slash or a word that
ends there, or end a comment, a directive or a literal. Otherwise only the mode changes. -/
inductive Action where
  | turn (mode : Mode)
  | code
  | slash
  | word (text : List Char)
  | blockComment (text : List Char)
  | lineComment (text : List Char)
  | directive
  | literal (text : List Char)

def Action.isCode : Action → Bool
  | .turn mode => mode.layer == .code
  | .code | .slash | .word _ => true
  | _ => false

namespace State

open HeaderDocs.Text

/-- Carries out what a character does. -/
def act (s : State) (c : Char) : Action → State
  | .turn mode => s.enter mode
  | .code => s.plain c
  | .slash =>
    ((s.enter .plain).update (·.update fun c => { c with joinable := false }.pushMark "/")).plain c
  | .word text => ((s.enter .plain).update (·.word (String.ofList text.reverse) c)).plain c
  | .blockComment text => s.endBlockComment text
  | .lineComment text => s.endLineComment text
  | .directive => (s.enter .plain).update (·.update .endLine)
  | .literal text => s.endLiteral (c :: text)

end State

/-- A mode gives way to another one outside of the code. What that collects of a comment has been
read, a literal goes on, and the layers follow each other. -/
structure Mode.GivesWay (mode : Mode) (c : Char) (next : Mode) : Prop where
  outside : ∀ d, next.layer.isCode d = false
  comment : ∀ d ∈ next.comment, d = c ∨ d ∈ mode.comment
  literal : next.literal? = mode.literal?.map fun (quote, text) => (quote, c :: text)
  reads : mode.Proper → next.layer = mode.layer.next c ∧ next.Proper

theorem Mode.GivesWay.layer_ne {mode next : Mode} {c : Char} (h : mode.GivesWay c next) :
    next.layer ≠ .code := by
  intro hcode
  have hout := h.outside c
  rw [hcode] at hout
  cases hout

/-- What a character does in a mode, where `parens` parentheses are open. -/
inductive Mode.Acts (mode : Mode) (parens : Nat) (c : Char) : Action → Prop
  | code (hmode : mode = .plain) : Acts mode parens c .code
  | slash (hmode : mode = .slash) (hstar : c ≠ '*') (hslash : c ≠ '/') : Acts mode parens c .slash
  | word {text : List Char} (hmode : mode = .word text) (hc : State.isWordPart parens c = false) :
      Acts mode parens c (.word text)
  | part {text : List Char} (hmode : mode = .word text) (hc : State.isWordPart parens c = true) :
      Acts mode parens c (.turn (.word (c :: text)))
  | block {text : List Char} {lineStart : Bool}
      (hmode : mode = .blockComment ('*' :: text) lineStart) (hc : c = '/') :
      Acts mode parens c (.blockComment text)
  | star {text : List Char} (hmode : mode = .blockStar text) (hc : c = '/') :
      Acts mode parens c (.blockComment text)
  | line {text : List Char} (hmode : mode = .lineComment text) (hc : c = '\n') :
      Acts mode parens c (.lineComment text)
  | directive {quote : Option Char} (hmode : mode = .directive quote) (hc : c = '\n') :
      Acts mode parens c .directive
  | directiveSlash (hmode : mode = .directiveSlash) (hc : c = '\n') : Acts mode parens c .directive
  | literal {quote : Char} {text : List Char} (hmode : mode = .literal quote text) (hc : c = quote)
      (hescape : c ≠ '\\') : Acts mode parens c (.literal text)
  | outside {next : Mode} (hcode : mode.layer.isCode c = false) (hnext : mode.GivesWay c next) :
      Acts mode parens c (.turn next)

theorem Mode.Acts.isCode {mode : Mode} {parens : Nat} {c : Char} {a : Action}
    (h : mode.Acts parens c a) : mode.layer.isCode c = a.isCode := by
  cases h with
  | code hmode | word hmode | part hmode | block hmode | star hmode | line hmode | directive hmode
  | directiveSlash hmode | literal hmode =>
    rw [hmode]
    rfl
  | slash hmode hstar hslash =>
    rw [hmode]
    simp [Mode.layer, Layer.isCode, Action.isCode, hstar, hslash]
  | outside hcode hnext => simp [hcode, Action.isCode, hnext.layer_ne]

namespace State

theorem enter_self {s : State} {mode : Mode} (h : s.mode = mode) : s.enter mode = s := by
  rw [enter, ← h]

/-- A character of a block comment ends it, or is kept or passed over. -/
theorem blockComment_acts (text : List Char) (lineStart : Bool) (c : Char) :
    (∃ rest, text = '*' :: rest ∧ c = '/' ∧
      ∀ t : State, t.blockComment text lineStart c = t.endBlockComment rest) ∨
    ∃ next, (Mode.blockComment text lineStart).GivesWay c next ∧
      ∀ t : State, t.blockComment text lineStart c = t.enter next := by
  unfold blockComment
  dsimp only
  split
  · rename_i hstar
    simp only [Bool.and_eq_true, beq_iff_eq] at hstar
    obtain ⟨rfl, rfl⟩ := hstar
    refine .inr ⟨.blockStar text, ⟨fun _ => rfl, fun d hd => .inr hd, rfl, fun h => ⟨?_, h⟩⟩,
      fun _ => rfl⟩
    simp [Mode.layer, Layer.next]
  · rename_i hstar
    split
    · -- a line feed is not kept before the text begins
      rename_i hline
      obtain rfl := eq_of_beq hline
      refine .inr ⟨.blockComment _ true, ⟨fun _ => rfl, fun d hd => ?_, rfl, fun _ => ?_⟩,
        fun _ => rfl⟩
      · cases text with
        | nil => cases hd
        | cons e text => exact List.mem_cons.mp hd
      · cases text <;> exact ⟨by simp [Mode.layer, Layer.next], by simp [Mode.Proper]⟩
    · split
      · rename_i hspace
        simp only [Bool.and_eq_true] at hspace
        obtain ⟨rfl, -⟩ := hspace
        refine .inr ⟨.blockComment text true, ⟨fun _ => rfl, fun d hd => .inr hd, rfl,
          fun h => ⟨?_, h⟩⟩, fun _ => rfl⟩
        have hhead : (text.head? == some '*') = false := beq_eq_false_iff_ne.mpr h
        have hne : (c == '*') = false := by simpa using hstar
        simp [Mode.layer, Layer.next, hhead, hne]
      · split
        · exact .inl ⟨_, rfl, rfl, fun _ => rfl⟩
        · rename_i hslash
          refine .inr ⟨.blockComment (c :: text) false,
            ⟨fun _ => rfl, fun d hd => List.mem_cons.mp hd, rfl, fun _ => ⟨?_, trivial⟩⟩,
            fun _ => rfl⟩
          have hgo : ¬((text.head? == some '*' && c == '/') = true) := by
            intro hb
            simp only [Bool.and_eq_true, beq_iff_eq] at hb
            obtain ⟨rest, rfl⟩ := List.head?_eq_some_iff.mp hb.1
            exact hslash rest hb.2 rfl
          simp only [Mode.layer, Layer.next, if_neg hgo, List.head?_cons, Option.some_beq_some]

/-- A character of a directive ends it with its line, or leads on in it. -/
theorem directive_acts (quote : Option Char) (c : Char) :
    (c = '\n' ∧ ∀ t : State, t.directive quote c = (t.enter .plain).update (·.update .endLine)) ∨
    ∃ next, (Mode.directive quote).GivesWay c next ∧
      ∀ t : State, t.directive quote c = t.enter next := by
  suffices h : (c = '\n' ∧
        ∀ t : State, t.directive quote c = (t.enter .plain).update (·.update .endLine)) ∨
      ∃ next, (next = .directiveSlash ∨ ∃ q, next = .directive q ∨ next = .directiveEscape q) ∧
        next.layer = .afterDirective quote c ∧ ∀ t : State, t.directive quote c = t.enter next by
    refine h.imp_right fun ⟨next, hnext, hlayer, hstep⟩ => ⟨next, ?_, hstep⟩
    obtain rfl | ⟨q, rfl | rfl⟩ := hnext <;>
      exact ⟨fun _ => rfl, nofun, rfl, fun _ => ⟨hlayer, trivial⟩⟩
  unfold directive Layer.afterDirective
  split
  · rename_i hline
    exact .inl ⟨eq_of_beq hline, fun _ => rfl⟩
  · refine .inr ?_
    split
    · exact ⟨_, .inr ⟨quote, .inr rfl⟩, rfl, fun _ => rfl⟩
    · cases quote with
      | some q =>
        dsimp only
        split <;> exact ⟨_, .inr ⟨_, .inl rfl⟩, rfl, fun _ => rfl⟩
      | none =>
        dsimp only
        split
        · exact ⟨_, .inr ⟨some c, .inl rfl⟩, rfl, fun _ => rfl⟩
        · split
          · exact ⟨_, .inl rfl, rfl, fun _ => rfl⟩
          · exact ⟨_, .inr ⟨none, .inl rfl⟩, rfl, fun _ => rfl⟩

/-- What a character does is a matter of the mode and of the parentheses. -/
theorem exists_acts (mode : Mode) (parens : Nat) (c : Char) :
    ∃ a, mode.Acts parens c a ∧ ∀ s : State, s.mode = mode → s.scope.context.parens = parens →
      s.step c = s.act c a := by
  have houtside : ∀ next : Mode, mode.layer.isCode c = false → mode.GivesWay c next →
      (∀ s : State, s.mode = mode → s.step c = s.enter next) →
      ∃ a, mode.Acts parens c a ∧ ∀ s : State, s.mode = mode → s.scope.context.parens = parens →
        s.step c = s.act c a :=
    fun next hcode hway hstep =>
      ⟨.turn next, .outside hcode hway, fun s hs _ => hstep s hs⟩
  cases mode with
  | plain => exact ⟨.code, .code rfl, fun s hs _ => by simp only [step, hs, act]⟩
  | slash =>
    by_cases hstar : c = '*'
    · subst hstar
      exact houtside (.blockComment [] true) rfl
        ⟨fun _ => rfl, nofun, rfl, fun _ => ⟨rfl, nofun⟩⟩ fun s hs => by simp [step, hs]
    · by_cases hslash : c = '/'
      · subst hslash
        exact houtside (.lineComment []) rfl
          ⟨fun _ => rfl, nofun, rfl, fun _ => ⟨rfl, trivial⟩⟩ fun s hs => by simp [step, hs]
      · exact ⟨.slash, .slash rfl hstar hslash,
          fun s hs _ => by simp [step, hs, act, hstar, hslash]⟩
  | word text =>
    cases hc : isWordPart parens c with
    | true => exact ⟨_, .part rfl hc, fun s hs hp => by simp [step, hs, hp, hc, act]⟩
    | false => exact ⟨_, .word rfl hc, fun s hs hp => by simp [step, hs, hp, hc, act]⟩
  | directive quote =>
    rcases directive_acts quote c with ⟨hline, hend⟩ | ⟨next, hway, hnext⟩
    · exact ⟨.directive, .directive rfl hline, fun s hs _ => by simp only [step, hs, hend, act]⟩
    · exact houtside _ rfl hway fun s hs => by simp only [step, hs, hnext]
  | directiveSlash =>
    by_cases hstar : c = '*'
    · subst hstar
      exact houtside (.directiveComment false) rfl
        ⟨fun _ => rfl, nofun, rfl, fun _ => ⟨rfl, trivial⟩⟩ fun s hs => by simp [step, hs]
    · rcases directive_acts none c with ⟨hline, hend⟩ | ⟨next, hway, hnext⟩
      · exact ⟨.directive, .directiveSlash rfl hline,
          fun s hs _ => by simp [step, hs, hstar, hend, act]⟩
      · refine houtside _ rfl ⟨hway.outside, hway.comment, hway.literal, fun _ => ?_⟩
          fun s hs => by simp [step, hs, hstar, hnext]
        simpa [Mode.layer, Layer.next, hstar] using hway.reads trivial
  | directiveEscape quote =>
    exact houtside (.directive quote) rfl
      ⟨fun _ => rfl, nofun, rfl, fun _ => ⟨rfl, trivial⟩⟩ fun s hs => by simp only [step, hs]
  | directiveComment star =>
    cases hc : star && c == '/' with
    | true =>
      refine houtside (.directive none) rfl ⟨fun _ => rfl, nofun, rfl, fun _ => ⟨?_, trivial⟩⟩
        fun s hs => by simp only [step, hs, hc, if_pos]
      simp [Mode.layer, Layer.next, hc]
    | false =>
      refine houtside (.directiveComment (c == '*')) rfl
        ⟨fun _ => rfl, nofun, rfl, fun _ => ⟨?_, trivial⟩⟩ fun s hs => by simp [step, hs, hc]
      simp [Mode.layer, Layer.next, hc]
  | blockComment text lineStart =>
    rcases blockComment_acts text lineStart c with ⟨rest, rfl, hc, hend⟩ | ⟨next, hway, hnext⟩
    · exact ⟨_, .block rfl hc, fun s hs _ => by simp only [step, hs, hend, act]⟩
    · exact houtside _ rfl hway fun s hs => by simp only [step, hs, hnext]
  | blockStar text =>
    by_cases hc : c = '/'
    · exact ⟨_, .star rfl hc, fun s hs _ => by simp [step, hs, hc, act]⟩
    · rcases blockComment_acts text true c with ⟨rest, -, hslash, -⟩ | ⟨next, hway, hnext⟩
      · exact absurd hslash hc
      · refine houtside _ rfl ⟨hway.outside, hway.comment, hway.literal, fun hproper => ?_⟩
          fun s hs => by simp [step, hs, hc, hnext]
        -- the star was decoration, and cannot end the comment any more
        have hhead : (text.head? == some '*') = false := beq_eq_false_iff_ne.mpr hproper
        simpa [Mode.layer, Layer.next, hhead, hc] using hway.reads hproper
  | lineComment text =>
    by_cases hline : c = '\n'
    · exact ⟨_, .line rfl hline, fun s hs _ => by simp [step, hs, hline, act]⟩
    · by_cases hreturn : c = '\r'
      · subst hreturn
        exact houtside (.lineComment text) rfl
          ⟨fun _ => rfl, fun d hd => .inr hd, rfl, fun _ => ⟨rfl, trivial⟩⟩
          fun s hs => by simp [step, hs, enter_self hs]
      · refine houtside (.lineComment (c :: text)) rfl
          ⟨fun _ => rfl, fun d hd => List.mem_cons.mp hd, rfl, fun _ => ⟨?_, trivial⟩⟩
          fun s hs => by simp [step, hs, hline, hreturn]
        simp [Mode.layer, Layer.next, hline]
  | literal quote text =>
    by_cases hescape : c = '\\'
    · subst hescape
      exact houtside (.literalEscape quote _) rfl
        ⟨fun _ => rfl, nofun, rfl, fun _ => ⟨rfl, trivial⟩⟩ fun s hs => by simp [step, hs]
    · by_cases hquote : c = quote
      · subst hquote
        exact ⟨_, .literal rfl rfl hescape, fun s hs _ => by simp [step, hs, hescape, act]⟩
      · refine houtside (.literal quote (c :: text)) rfl
          ⟨fun _ => rfl, nofun, rfl, fun _ => ⟨?_, trivial⟩⟩
          fun s hs => by simp [step, hs, hescape, hquote]
        simp [Mode.layer, Layer.next, hescape, hquote]
  | literalEscape quote text =>
    exact houtside (.literal quote (c :: text)) rfl
      ⟨fun _ => rfl, nofun, rfl, fun _ => ⟨rfl, trivial⟩⟩ fun s hs => by simp only [step, hs]

/-- Every character acts in one of the ways. -/
theorem step_acts (s : State) (c : Char) :
    ∃ a, s.mode.Acts s.scope.context.parens c a ∧ s.step c = s.act c a := by
  obtain ⟨a, ha, hstep⟩ := exists_acts s.mode s.scope.context.parens c
  exact ⟨a, ha, hstep s rfl rfl⟩

/-- Where the modes and the parentheses agree, a character acts in the same way. -/
theorem step_acts_both {s v : State} (hmode : s.mode = v.mode)
    (hparens : s.scope.context.parens = v.scope.context.parens) (c : Char) :
    ∃ a, v.mode.Acts v.scope.context.parens c a ∧ s.step c = s.act c a ∧ v.step c = v.act c a := by
  obtain ⟨a, ha, hstep⟩ := exists_acts v.mode v.scope.context.parens c
  exact ⟨a, ha, hstep s hmode hparens, hstep v rfl rfl⟩

/-- The state that a mark of the code is read in: behind the slash or the word that it ends. -/
inductive Before (s : State) (c : Char) : State → Prop
  | code (hmode : s.mode = .plain) : Before s c s
  | slash (hmode : s.mode = .slash) :
      Before s c
        ((s.enter .plain).update (·.update fun c => { c with joinable := false }.pushMark "/"))
  | word {text : List Char} (hmode : s.mode = .word text) :
      Before s c ((s.enter .plain).update (·.word (String.ofList text.reverse) c))

theorem step_of_isCode {s : State} {c : Char} (hcode : s.mode.layer.isCode c = true)
    (hpart : isWordPart s.scope.context.parens c = false) :
    ∃ t, s.Before c t ∧ t.mode = .plain ∧ s.step c = t.plain c := by
  obtain ⟨a, ha, hstep⟩ := s.step_acts c
  rw [ha.isCode] at hcode
  rw [hstep]
  cases a with
  | turn mode =>
    cases ha with
    | part _ hgoes => exact absurd (hpart.symm.trans hgoes) Bool.false_ne_true
    | outside _ hnext => exact absurd (eq_of_beq hcode) hnext.layer_ne
  | code =>
    cases ha with | code hmode
    exact ⟨s, .code hmode, hmode, rfl⟩
  | slash =>
    cases ha with | slash hmode
    exact ⟨_, .slash hmode, rfl, rfl⟩
  | word text =>
    cases ha with | word hmode
    exact ⟨_, .word hmode, rfl, rfl⟩
  | blockComment text | lineComment text | directive | literal text => cases hcode

/-! ## Texts -/

/-- A text keeps what each of its characters keeps. -/
theorem run_keeps {P : State → Prop} (hstep : ∀ s c, P s → P (s.step c)) {s : State} (h : P s)
    (text : List Char) : P (s.run text) := by
  induction text generalizing s with
  | nil => exact h
  | cons c text ih => exact ih (hstep s c h)

/-- A text is read beside a reader that may refuse it, as each of its characters is. -/
theorem run_beside {α : Type} {read : α → Char → Option α} {P : α → State → Prop}
    (hstep : ∀ {a a' s c}, P a s → read a c = some a' → P a' (s.step c)) {a a' : α} {s : State}
    (h : P a s) {text : List Char} (ht : text.foldlM read a = some a') : P a' (s.run text) := by
  induction text generalizing a s with
  | nil =>
    cases ht
    exact h
  | cons c text ih =>
    rw [List.foldlM_cons] at ht
    obtain ⟨next, hnext, ht⟩ := Option.bind_eq_some_iff.mp ht
    exact ih (hstep h hnext) ht

/-! ## Braces -/

theorem splitAlias_sublist (run : Run) : (splitAlias run).2.Sublist run := by
  unfold splitAlias
  split
  · exact List.drop_sublist _ _
  · exact List.Sublist.refl run

@[elab_as_elim]
theorem openBrace_cases {motive : State → Prop} (s : State)
    (header : ∀ head, s.scope.context.header = some head →
      motive (s.openBlock (·.commitHeader head)))
    (record : ∀ kind, recordKind? ((splitAlias s.scope.context.run).2.texts.headD "") = some kind →
      motive
        (s.openRecord kind (splitAlias s.scope.context.run).1 (splitAlias s.scope.context.run).2))
    (nameSpace : ∀ name rest, s.scope.context.run.texts = "namespace" :: name :: rest →
      motive (s.openNameSpace name))
    (enumeration : motive (s.openBlock
      (openEnumeration (splitAlias s.scope.context.run).1 (splitAlias s.scope.context.run).2)))
    (linkage : motive s.openLinkage)
    (block : motive (s.openBlock (·.update .dropRun))) : motive s.openBrace := by
  unfold State.openBrace
  dsimp only
  split
  · rename_i head hhead
    exact header head hhead
  · split
    · rename_i kind hkind
      exact record kind hkind
    · split
      · rename_i name rest hwords
        exact nameSpace name rest hwords
      · split
        · exact enumeration
        · split
          · exact linkage
          · exact block

theorem mode_openBrace (s : State) : s.openBrace.mode = s.mode := by
  refine s.openBrace_cases (fun _ _ => rfl) (fun _ _ => rfl) (fun name _ _ => ?_) rfl rfl rfl
  unfold State.openNameSpace
  dsimp only
  split <;> rfl

theorem mode_pop (s : State) : s.pop.mode = s.mode := by
  unfold State.pop
  split <;> rfl

theorem mode_closeBrace (s : State) : s.closeBrace.mode = s.mode := by
  unfold State.closeBrace
  dsimp only
  split
  · rfl
  · exact mode_pop _

end State

/-! ## The mode after a character of the code -/

/-- A class of characters without those that open something leads from code to code. -/
theorem Layer.afterCode_eq_code {p : Char → Bool} (hp : ['/', '#', '"', '\''].all (!p ·) = true)
    {c : Char} (h : p c = true) : Layer.afterCode c = .code := by
  have hc := notMem_of_class hp h
  simp only [List.mem_cons, List.not_mem_nil, or_false, not_or] at hc
  simp [Layer.afterCode, hc]

/-- The modes that follow another one after a character of the code. -/
inductive Mode.Follows (c : Char) (mode : Mode) : Mode → Prop
  | same (hlayer : Layer.afterCode c = .code)
      (hword : Text.isSpace c = true ∨ State.isWordStart c = false) : Follows c mode mode
  | slash (hc : c = '/') : Follows c mode .slash
  | begins {next : Mode} (hnext : Mode.BeginsWith c next) : Follows c mode next

namespace Mode

variable {c : Char} {next : Mode}

theorem BeginsWith.layer (h : BeginsWith c next) : next.layer = .afterCode c := by
  cases h with
  | directive hc => exact hc ▸ rfl
  | literal hc => obtain rfl | rfl := hc <;> rfl
  | word hc => exact (Layer.afterCode_eq_code (by decide) hc).symm

theorem Follows.layer (h : Follows c .plain next) : next.layer = .afterCode c := by
  cases h with
  | same hlayer => exact hlayer.symm
  | slash hc => exact hc ▸ rfl
  | begins hnext => exact hnext.layer

theorem Follows.proper (h : Follows c .plain next) : next.Proper := by
  cases h with
  | same | slash => trivial
  | begins hnext => cases hnext <;> trivial

end Mode

namespace State

theorem mode_mark (s : State) {c : Char} (hc : c ≠ '/') :
    Mode.Follows c s.mode (s.mark c).mode := by
  refine mark_cases c ?begins ?openBrace ?closeBrace ?openParen ?closeParen ?semicolon ?comma
    ?equals ?sign ?ampersand ?colon ?other
  case begins => exact fun mode hmode => .begins hmode
  case openBrace =>
    rintro rfl
    exact s.mode_openBrace ▸ .same rfl (.inr (by decide))
  case closeBrace =>
    rintro rfl
    exact s.mode_closeBrace ▸ .same rfl (.inr (by decide))
  case openParen | closeParen | semicolon | comma | equals | ampersand | colon =>
    rintro rfl
    exact .same rfl (.inr (by decide))
  case sign => rintro (rfl | rfl | rfl) <;> exact .same rfl (.inr (by decide))
  case other =>
    intro hmarks hword
    simp only [marks, List.mem_cons, not_or] at hmarks
    exact .same (by simp [Layer.afterCode, hc, hmarks]) (.inr hword)

theorem mode_plain (s : State) (c : Char) : Mode.Follows c s.mode (s.plain c).mode := by
  refine plain_cases c ?newline ?space ?slash ?mark
  case newline =>
    rintro rfl
    exact .same rfl (.inl (by decide))
  case space => exact fun hc => .same (Layer.afterCode_eq_code (by decide) hc) (.inl hc)
  case slash => exact fun hc => .slash hc
  case mark => exact fun _ hc => mode_mark (s.update _) hc

end State

/-! ## Layers and characters -/

namespace State

open HeaderDocs.Text

/-- The state reads in a layer. -/
def ReadsIn (l : Layer) (s : State) : Prop := s.mode.layer = l ∧ s.mode.Proper

variable {s : State}

theorem readsIn_code (h : s.mode = .plain) : s.ReadsIn .code := by
  rw [ReadsIn, h]
  exact ⟨rfl, trivial⟩

theorem readsIn_plain (h : s.mode = .plain) (c : Char) : (s.plain c).ReadsIn (.afterCode c) := by
  have hnext := s.mode_plain c
  rw [h] at hnext
  exact ⟨hnext.layer, hnext.proper⟩

/-- Reading a character takes the scanner to the next layer. -/
theorem layer_step {l : Layer} (h : s.ReadsIn l) (c : Char) : (s.step c).ReadsIn (l.next c) := by
  obtain ⟨rfl, hproper⟩ := h
  obtain ⟨a, ha, hstep⟩ := s.step_acts c
  rw [hstep]
  cases a with
  | turn mode =>
    cases ha with
    | part hmode hc =>
      rw [hmode]
      refine ⟨(Layer.afterCode_eq_code ?_ hc).symm, trivial⟩
      simp [isWordPart]
      decide
    | outside _ hnext => exact hnext.reads hproper
  | code =>
    cases ha with | code hmode
    rw [hmode]
    exact readsIn_plain hmode c
  | slash =>
    cases ha with | slash hmode hstar hslash
    have hnext : Layer.slash.next c = .afterCode c := by simp [Layer.next, hstar, hslash]
    rw [hmode]
    exact hnext ▸ readsIn_plain rfl c
  | word text =>
    cases ha with | word hmode
    rw [hmode]
    exact readsIn_plain rfl c
  | blockComment text =>
    cases ha with
    | block hmode hc | star hmode hc =>
      rw [hmode, hc]
      exact ⟨rfl, trivial⟩
  | lineComment text =>
    cases ha with | line hmode hc
    rw [hmode, hc]
    exact ⟨rfl, trivial⟩
  | directive =>
    cases ha with
    | directive hmode hc | directiveSlash hmode hc =>
      rw [hmode, hc]
      exact ⟨rfl, trivial⟩
  | literal text =>
    cases ha with | literal hmode hc hescape
    refine ⟨?_, trivial⟩
    rw [hmode, ← hc]
    simp [act, endLiteral, update, enter, Mode.layer, Layer.next, hescape]

end State

end HeaderDocs.Scan
