import HeaderDocs.Proofs.Scan.Spelling
import HeaderDocs.Proofs.Scan.WrittenSources

/-!
# Words and literals of a source

A word that the scanner reads is one of the source: it begins where no word goes on, and ends where it
would have gone on otherwise. A literal begins with its quote.

* `HasWord`: a text has a word in it, and not only as a part of a longer one.
* `State.readAfter_run`: what the mode has collected is the end of what has been read.
* `State.Ends.lexeme`: where a word or a literal ends.
-/
namespace HeaderDocs.Scan

open HeaderDocs.Text

/-- The text has the word in it, with no letter, digit or underscore directly before or after it. -/
def HasWord (word text : List Char) : Prop :=
  ∃ before after, text = before ++ word ++ after ∧
    (∀ c ∈ before.getLast?, isWordChar c = false) ∧ ∀ c ∈ after.head?, isWordChar c = false

theorem HasWord.isInfix {word text : List Char} (h : HasWord word text) : word <:+: text := by
  obtain ⟨before, after, rfl, -⟩ := h
  exact ⟨before, after, rfl⟩

/-- The text does not end inside of a word. -/
def EndsOutside (text : List Char) : Prop := ∀ c ∈ text.getLast?, State.isWordStart c = false

/-- A word: it starts as one, and goes on as one, at least inside of parentheses. -/
structure IsWord (word : List Char) : Prop where
  start : ∃ c ∈ word.head?, State.isWordStart c = true
  parts : ∀ c ∈ word, State.isWordPart 2 c = true

/-- What a mode has collected is the end of the text that has been read. -/
def Mode.ReadAfter (before : List Char) : Mode → Prop
  | plain | slash => EndsOutside before
  | word text => ∃ rest, before = rest ++ text.reverse ∧ EndsOutside rest ∧ IsWord text.reverse
  | literal quote text | literalEscape quote text =>
    (quote = '"' ∨ quote = '\'') ∧ text.getLast? = some quote ∧ text.reverse <:+ before
  | _ => True

variable {before : List Char}

theorem endsOutside_concat {c : Char} (h : State.isWordStart c = false) :
    EndsOutside (before ++ [c]) := by
  intro d hd
  rw [List.getLast?_concat] at hd
  rw [← Option.some.inj hd]
  exact h

theorem suffix_concat {text : List Char} (h : text.reverse <:+ before) (c : Char) :
    (c :: text).reverse <:+ before ++ [c] := by
  obtain ⟨rest, rfl⟩ := h
  exact ⟨rest, by simp⟩

theorem isWordPart_mono {parens : Nat} {c : Char} (h : State.isWordPart parens c = true) :
    State.isWordPart 2 c = true := by
  simp only [State.isWordPart, Bool.or_eq_true, Bool.and_eq_true] at h ⊢
  exact h.imp_right fun hc => ⟨hc.1, rfl⟩

theorem isWordStart_of_isWordPart {parens : Nat} {c : Char} (h : State.isWordPart parens c = false) :
    State.isWordStart c = false := by
  simp only [State.isWordPart, Bool.or_eq_false_iff] at h
  exact h.1.1.1.1

theorem isWordChar_of_isWordStart {c : Char} (h : State.isWordStart c = false) :
    isWordChar c = false := by
  simp only [State.isWordStart, Bool.or_eq_false_iff] at h
  simp [isWordChar, h.1.1.1, h.1.1.2]

theorem IsWord.concat {word : List Char} (h : IsWord word) {parens : Nat} {c : Char}
    (hc : State.isWordPart parens c = true) : IsWord (word ++ [c]) := by
  obtain ⟨⟨first, hfirst, hstart⟩, hparts⟩ := h
  refine ⟨⟨first, ?_, hstart⟩, fun d hd => ?_⟩
  · rw [Option.mem_def, List.head?_append, hfirst]
    rfl
  · rcases List.mem_append.mp hd with hd | hd
    · exact hparts d hd
    · rw [List.mem_singleton.mp hd]
      exact isWordPart_mono hc

/-- Only a character that starts a word has to stand apart from what comes before. -/
theorem Mode.Follows.readAfter {c : Char} {next : Mode} (h : Mode.Follows c .plain next)
    (hb : State.isWordStart c = true → EndsOutside before) : next.ReadAfter (before ++ [c]) := by
  cases h with
  | same _ hword => exact endsOutside_concat (hword.elim isWordStart_of_isSpace id)
  | slash hc => exact hc ▸ endsOutside_concat (by decide)
  | begins hnext =>
    cases hnext with
    | directive => trivial
    | literal hc => exact ⟨hc, rfl, List.suffix_append before _⟩
    | word hc =>
      refine ⟨before, rfl, hb hc, ⟨c, rfl, hc⟩, fun d hd => ?_⟩
      rw [List.mem_singleton.mp hd]
      simp [State.isWordPart, hc]

theorem Mode.ReadAfter.of_literal {mode : Mode} {quote : Char} {text : List Char}
    (h : mode.ReadAfter before) (hliteral : mode.literal? = some (quote, text)) :
    (quote = '"' ∨ quote = '\'') ∧ text.getLast? = some quote ∧ text.reverse <:+ before := by
  cases mode with
  | literal | literalEscape =>
    cases hliteral
    exact h
  | _ => cases hliteral

theorem Mode.GivesWay.readAfter {mode next : Mode} {c : Char} (h : mode.GivesWay c next)
    (hread : mode.ReadAfter before) : next.ReadAfter (before ++ [c]) := by
  have hliteral := h.literal
  cases next with
  | plain | word text => exact absurd rfl h.layer_ne
  | slash => exact absurd (h.outside ' ') (by decide)
  | literal quote text | literalEscape quote text =>
    obtain ⟨⟨q, read⟩, hl, he⟩ := Option.map_eq_some_iff.mp hliteral.symm
    cases he
    obtain ⟨hquote, hlast, hsuffix⟩ := hread.of_literal hl
    refine ⟨hquote, ?_, suffix_concat hsuffix c⟩
    rw [List.getLast?_cons, hlast]
    rfl
  | _ => trivial

namespace State

variable {s : State}

theorem readAfter_plain (h : s.mode = .plain) {c : Char}
    (hb : isWordStart c = true → EndsOutside before) :
    (s.plain c).mode.ReadAfter (before ++ [c]) := by
  have hnext := s.mode_plain c
  rw [h] at hnext
  exact hnext.readAfter hb

theorem readAfter_step (h : s.mode.ReadAfter before) (c : Char) :
    (s.step c).mode.ReadAfter (before ++ [c]) := by
  obtain ⟨a, ha, hstep⟩ := s.step_acts c
  rw [hstep]
  cases a with
  | turn mode =>
    cases ha with
    | part hmode hc =>
      rw [hmode] at h
      obtain ⟨rest, hrest, houtside, hword⟩ := h
      refine ⟨rest, ?_, houtside, ?_⟩
      · rw [hrest, List.reverse_cons, List.append_assoc]
      · rw [List.reverse_cons]
        exact hword.concat hc
    | outside _ hnext => exact hnext.readAfter h
  | code =>
    cases ha with | code hmode
    rw [hmode] at h
    exact readAfter_plain hmode fun _ => h
  | slash =>
    cases ha with | slash hmode
    rw [hmode] at h
    exact readAfter_plain rfl fun _ => h
  | word text =>
    cases ha with | word hmode hc
    have hstart := isWordStart_of_isWordPart hc
    exact readAfter_plain rfl fun hc' => absurd (hstart.symm.trans hc') Bool.false_ne_true
  | blockComment text =>
    cases ha with
    | block hmode hc | star hmode hc => exact hc ▸ endsOutside_concat (by decide)
  | lineComment text =>
    cases ha with | line hmode hc
    exact hc ▸ endsOutside_concat (by decide)
  | directive =>
    cases ha with
    | directive hmode hc | directiveSlash hmode hc => exact hc ▸ endsOutside_concat (by decide)
  | literal text =>
    cases ha with | literal hmode hc
    rw [hmode] at h
    refine endsOutside_concat ?_
    rw [hc]
    obtain hquote | hquote := h.1 <;> rw [hquote] <;> decide

/-- What the mode has collected is the end of what has been read. -/
theorem readAfter_append (h : s.mode.ReadAfter before) (text : List Char) :
    (s.run text).mode.ReadAfter (before ++ text) := by
  induction text generalizing s before with
  | nil =>
    rw [List.append_nil]
    exact h
  | cons c text ih =>
    have hnext := ih (readAfter_step h c)
    rwa [List.append_assoc] at hnext

/-- What the mode has collected is the end of the text. -/
theorem readAfter_run (tree : Node) (text : List Char) :
    ((start tree).run text).mode.ReadAfter text :=
  readAfter_append (show (start tree).mode.ReadAfter [] by intro d hd; cases hd) text

/-- What ends is a word of the text, or begins with a quote. -/
theorem Ends.lexeme {text : List Char} {c : Char} {lexeme : String} {tree : Node}
    (h : ((start tree).run text).Ends c lexeme) :
    (IsWord lexeme.toList ∧ ∀ after, HasWord lexeme.toList (text ++ c :: after)) ∨
      ∃ quote, (quote = '"' ∨ quote = '\'') ∧ lexeme.toList.head? = some quote ∧
        lexeme.toList <:+ text ++ [c] := by
  have hread := readAfter_run tree text
  cases h with
  | word hmode hc =>
    rename_i word
    rw [hmode] at hread
    obtain ⟨rest, hrest, houtside, hword⟩ := hread
    rw [String.toList_ofList]
    refine .inl ⟨hword, fun after => ⟨rest, c :: after, by rw [hrest], ?_, ?_⟩⟩
    · exact fun d hd => isWordChar_of_isWordStart (houtside d hd)
    · rintro _ ⟨⟩
      exact isWordChar_of_isWordStart (isWordStart_of_isWordPart hc)
  | literal hmode hc =>
    rename_i quote literal _
    rw [hmode] at hread
    obtain ⟨hquote, hlast, hsuffix⟩ := hread
    rw [String.toList_ofList]
    refine .inr ⟨quote, hquote, ?_, suffix_concat hsuffix _⟩
    rw [List.head?_reverse, List.getLast?_cons, hlast]
    rfl

end State

end HeaderDocs.Scan
