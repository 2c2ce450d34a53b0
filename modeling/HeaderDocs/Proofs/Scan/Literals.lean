import HeaderDocs.Proofs.Scan.Lexemes

/-!
# The literals of a source

`literals` reads the strings and characters that are written in the code of a source; those in comments
and directives do not count. The scanner reads no others.

* `mem_literals`: what ends in a source is a word or one of its literals.
-/
namespace HeaderDocs.Scan

namespace Layer

def isLiteral : Layer → Bool
  | literal _ | literalEscape _ => true
  | _ => false

theorem isLiteral_next {l : Layer} {c : Char} (h : l.isLiteral = true) (hne : l.next c ≠ .code) :
    (l.next c).isLiteral = true := by
  cases l with
  | literal quote =>
    unfold next at hne ⊢
    dsimp only at hne ⊢
    split
    · rfl
    · rename_i hescape
      rw [if_neg hescape] at hne
      split
      · rename_i hquote
        exact absurd (if_pos hquote) hne
      · rfl
  | literalEscape quote => rfl
  | _ => cases h

end Layer

/-- The literals that end in a text. One has perhaps been read in part, backwards. -/
def literalsFrom (layer : Layer) (read : List Char) : List Char → List (List Char)
  | [] => []
  | c :: cs =>
    let next := layer.next c
    if next.isLiteral then literalsFrom next (c :: read) cs
    else if layer.isLiteral then (c :: read).reverse :: literalsFrom next [] cs
    else literalsFrom next [] cs

def literals (source : String) : List String :=
  (literalsFrom .code [] source.toList).map String.ofList

example : literals "#include \"a.h\"\nchar c = '\\'', *s = \"// no comment\"; // \"" =
    ["'\\''", "\"// no comment\""] := by decide +kernel

/-- The literal that is being read, backwards. -/
def Mode.literalText : Mode → List Char
  | .literal _ text | .literalEscape _ text => text
  | _ => []

theorem Mode.literalText_of_layer {m : Mode} (h : m.layer.isLiteral = false) :
    m.literalText = [] := by
  cases m <;> first | rfl | cases h

theorem Mode.literalText_of_literal {mode : Mode} {quote : Char} {text : List Char}
    (h : mode.literal? = some (quote, text)) : mode.literalText = text := by
  cases mode with
  | literal | literalEscape =>
    cases h
    rfl
  | _ => cases h

theorem Mode.Follows.literalText {c : Char} {next : Mode} (h : Mode.Follows c .plain next)
    (hnext : next.layer.isLiteral = true) : next.literalText = [c] := by
  cases h with
  | same | slash => cases hnext
  | begins hbegins =>
    cases hbegins with
    | literal => rfl
    | directive | word => cases hnext

theorem Mode.GivesWay.literalText {mode next : Mode} {c : Char} (h : mode.GivesWay c next)
    (hnext : next.layer.isLiteral = true) : next.literalText = c :: mode.literalText := by
  have hliteral := h.literal
  cases next with
  | literal quote text | literalEscape quote text =>
    obtain ⟨l, hl, he⟩ := Option.map_eq_some_iff.mp hliteral.symm
    cases he
    exact congrArg _ (Mode.literalText_of_literal hl).symm
  | _ => cases hnext

namespace State

variable {s : State} {l : Layer}

theorem literalText_plain (h : s.mode = .plain) {c : Char}
    (hnext : (s.plain c).mode.layer.isLiteral = true) : (s.plain c).mode.literalText = [c] := by
  have hfollows := s.mode_plain c
  rw [h] at hfollows
  exact hfollows.literalText hnext

/-- Reading a character goes on with a literal, or begins one. -/
theorem literalText_step (h : s.ReadsIn l) (c : Char) :
    (s.step c).mode.literalText = if (l.next c).isLiteral then c :: s.mode.literalText else [] := by
  rw [← (layer_step h c).1]
  split
  · rename_i hnext
    obtain ⟨a, ha, hstep⟩ := s.step_acts c
    rw [hstep] at hnext ⊢
    cases a with
    | turn mode =>
      cases ha with
      | part => cases hnext
      | outside _ hway => exact hway.literalText hnext
    | code =>
      cases ha with | code hmode
      rw [hmode]
      exact literalText_plain hmode hnext
    | slash =>
      cases ha with | slash hmode
      rw [hmode]
      exact literalText_plain rfl hnext
    | word text =>
      cases ha with | word hmode
      rw [hmode]
      exact literalText_plain rfl hnext
    | blockComment text | lineComment text | directive | literal text => cases hnext
  · rename_i hnext
    exact Mode.literalText_of_layer (Bool.eq_false_iff.mpr hnext)

/-- Reading some of a text reads the literals that end in it. -/
theorem literalsFrom_run (h : s.ReadsIn l) (text rest : List Char) :
    ∃ ended l', (s.run text).ReadsIn l' ∧ literalsFrom l s.mode.literalText (text ++ rest) =
      ended ++ literalsFrom l' (s.run text).mode.literalText rest := by
  induction text generalizing s l with
  | nil => exact ⟨[], l, h, rfl⟩
  | cons c text ih =>
    obtain ⟨ended, l', hl', hrun⟩ := ih (layer_step h c)
    rw [literalText_step h c] at hrun
    rw [List.cons_append, literalsFrom]
    split
    · rename_i hnext
      rw [if_pos hnext] at hrun
      exact ⟨ended, l', hl', hrun⟩
    · rename_i hnext
      rw [if_neg hnext] at hrun
      split
      · exact ⟨(c :: s.mode.literalText).reverse :: ended, l', hl', congrArg (_ :: ·) hrun⟩
      · exact ⟨ended, l', hl', hrun⟩

theorem Ends.mem_literals {tree : Node} {source lexeme : String} {before after : List Char} {c : Char}
    (h : ((start tree).run before).Ends c lexeme) (hsource : source.toList = before ++ c :: after) :
    IsWord lexeme.toList ∨ lexeme ∈ literals source := by
  obtain ⟨ended, l, hl, hrun⟩ :=
    literalsFrom_run (s := start tree) (readsIn_code rfl) before (c :: after)
  cases h with
  | word hmode hc =>
    have hread := readAfter_run tree before
    rw [hmode] at hread
    obtain ⟨_, -, -, hword⟩ := hread
    rw [String.toList_ofList]
    exact .inl hword
  | literal hmode hc hescape =>
    rename_i quote text
    have hlayer := hl.1
    rw [hmode] at hlayer hrun
    subst hlayer hc
    have hnext : (Layer.literal c).next c = .code := by
      simp [Layer.next, hescape]
    right
    unfold literals
    refine List.mem_map_of_mem ?_
    rw [hsource]
    change _ ∈ literalsFrom .code (start tree).mode.literalText _
    rw [hrun]
    refine List.mem_append_right _ ?_
    rw [literalsFrom, Mode.layer, hnext]
    exact List.mem_cons_self ..

end State

end HeaderDocs.Scan
