import HeaderDocs.Proofs.Scan.Prototypes
import HeaderDocs.Proofs.Scan.SpacedMarks

/-!
# Directives

A directive goes to the end of its line, and what comes before and after it is read as if the line were
empty. `IsDirective` says which texts are directives: where literals, escapes and comments stand in them,
and so which line ends do not end them. A literal may be left open, as it ends with the line; a comment
may not.

* `isDirective_of_goOn?`: texts without a line end of their own are directives, unless they end in an
  escape or in a comment.
* `IsDirective.run`: the first line end behind a directive ends it, and nothing is left of it.
* `scan_directive`: a directive is read as an empty line.
-/
namespace HeaderDocs.Scan

open HeaderDocs.Text

/-! ## Texts of directives -/

/-- The text of a directive behind the number sign, or what is left of it within a literal with the
given quote. Comments begin outside of literals, wherever a slash stands before a star, as there are no
line comments in directives; in comments, quotes and backslashes do not count. -/
inductive IsDirective : Option Char → List Char → Prop
  | nil (quote : Option Char) : IsDirective quote []
  /-- A backslash takes the next character with it, the end of a line as well. -/
  | escape {quote : Option Char} (c : Char) {text : List Char} :
    IsDirective quote text → IsDirective quote ('\\' :: c :: text)
  | openLiteral {quote : Char} {text : List Char} : quote = '"' ∨ quote = '\'' →
    IsDirective (some quote) text → IsDirective none (quote :: text)
  | closeLiteral {quote : Char} {text : List Char} : quote ∉ ['\n', '\\'] →
    IsDirective none text → IsDirective (some quote) (quote :: text)
  | inLiteral {quote c : Char} {text : List Char} : c ∉ ['\n', '\\', quote] →
    IsDirective (some quote) text → IsDirective (some quote) (c :: text)
  | comment (c : BlockComment) {text : List Char} :
    IsDirective none text → IsDirective none (c.chars ++ text)
  | outside {c : Char} {text : List Char} : c ∉ ['\n', '\\', '"', '\''] →
    (c = '/' → text.head? ≠ some '*') → IsDirective none text → IsDirective none (c :: text)

namespace Layer

/-- Whether the end of a line would end a directive. In comments it does not, nor behind a backslash. -/
def endsWithLine : Layer → Bool
  | directive _ | directiveSlash => true
  | _ => false

/-- Reads on in a directive that is not to end here. -/
def goOn? (l : Layer) (c : Char) : Option Layer :=
  if l.endsWithLine && c == '\n' then none else some (l.next c)

/-- The text goes on with what has been read of a directive, of which a layer remembers an open literal
or comment, a backslash or a slash. -/
def GoesOn (text : List Char) : Layer → Prop
  | directive quote => IsDirective quote text
  | directiveEscape quote => IsDirective quote ('\\' :: text)
  | directiveSlash => IsDirective none ('/' :: text)
  | directiveComment star => ∀ body : List Char, ¬['*', '/'] <:+: body →
      (star = true ↔ body.getLast? = some '*') → IsDirective none ('/' :: '*' :: (body ++ text))
  | _ => True

variable {c : Char} {text : List Char}

theorem goesOn_directive {quote : Option Char} (hc : c ≠ '\n')
    (h : GoesOn text (afterDirective quote c)) : IsDirective quote (c :: text) := by
  unfold afterDirective at h
  rw [if_neg (by simpa using hc)] at h
  by_cases hescape : c = '\\'
  · rw [if_pos (by simpa using hescape)] at h
    exact hescape ▸ h
  · rw [if_neg (by simpa using hescape)] at h
    cases quote with
    | some quote =>
      dsimp only at h
      by_cases hclose : c = quote
      · rw [if_pos (by simpa using hclose)] at h
        exact hclose ▸ .closeLiteral (by simp [hc, hescape]) h
      · rw [if_neg (by simpa using hclose)] at h
        exact .inLiteral (by simp [hc, hescape, hclose]) h
    | none =>
      dsimp only at h
      by_cases hopen : c = '"' ∨ c = '\''
      · rw [if_pos (by simpa using hopen)] at h
        exact .openLiteral hopen h
      · rw [if_neg (by simpa using hopen)] at h
        by_cases hslash : c = '/'
        · rw [if_pos (by simpa using hslash)] at h
          exact hslash ▸ h
        · rw [if_neg (by simpa using hslash)] at h
          exact .outside (by simpa [hc, hescape] using hopen) (fun he => absurd he hslash) h

theorem goesOn_comment {star : Bool} {body : List Char} (hbody : ¬['*', '/'] <:+: body)
    (hstar : star = true ↔ body.getLast? = some '*')
    (h : GoesOn text ((directiveComment star).next c)) :
    IsDirective none ('/' :: '*' :: (body ++ c :: text)) := by
  simp only [next] at h
  split at h
  · rename_i hclose
    simp only [Bool.and_eq_true, beq_iff_eq] at hclose
    obtain ⟨start, rfl⟩ := List.getLast?_eq_some_iff.mp (hstar.mp hclose.1)
    have hopen : contains ['*', '/'] start = false := by
      rw [← Bool.not_eq_true, contains_iff_isInfix]
      exact fun hin => hbody (hin.trans (List.prefix_append start ['*']).isInfix)
    have hcomment := IsDirective.comment ⟨start, hopen⟩ h
    rw [hclose.2]
    simpa [BlockComment.chars] using hcomment
  · rename_i hclose
    have hnot : ¬['*', '/'] <:+: body ++ [c] := by
      rintro ⟨before, rest, he⟩
      rcases List.eq_nil_or_concat rest with rfl | ⟨rest, d, rfl⟩
      · rw [List.append_nil, show before ++ ['*', '/'] = (before ++ ['*']) ++ ['/'] by simp] at he
        obtain ⟨rfl, hc⟩ := List.append_inj' he rfl
        obtain rfl : '/' = c := List.singleton_inj.mp hc
        exact hclose (by simpa using hstar)
      · rw [List.concat_eq_append, ← List.append_assoc] at he
        obtain ⟨rfl, -⟩ := List.append_inj' he rfl
        exact hbody ⟨before, rest, rfl⟩
    have hgoes := h (body ++ [c]) hnot (by simp)
    rwa [List.append_assoc] at hgoes

theorem goesOn {l m : Layer} (h : text.foldlM goOn? l = some m) (hm : m.endsWithLine = true) :
    GoesOn text l := by
  induction text generalizing l with
  | nil =>
    cases h
    cases m with
    | directive quote => exact .nil quote
    | directiveSlash => exact .outside (by decide) (by simp) (.nil none)
    | _ => cases hm
  | cons c text ih =>
    rw [List.foldlM_cons] at h
    obtain ⟨next, hnext, h⟩ := Option.bind_eq_some_iff.mp h
    have hgoes := ih h
    unfold goOn? at hnext
    split at hnext
    · cases hnext
    rename_i hline
    obtain rfl := Option.some.inj hnext
    cases l with
    | directive quote => exact goesOn_directive (by simpa [endsWithLine] using hline) hgoes
    | directiveEscape quote => exact .escape c hgoes
    | directiveSlash =>
      simp only [next] at hgoes
      split at hgoes
      · rename_i hstar
        obtain rfl := eq_of_beq hstar
        exact hgoes [] (by simp) (by simp)
      · rename_i hstar
        have hc : c ≠ '\n' := by simpa [endsWithLine] using hline
        exact .outside (by decide) (fun _ => by simpa using hstar) (goesOn_directive hc hgoes)
    | directiveComment star => exact fun body hbody hstar => goesOn_comment hbody hstar hgoes
    | _ => trivial

end Layer

/-- A text is a directive if no line end in it would end it, and the next one does. -/
theorem isDirective_of_goOn? {text : List Char}
    (h : (text.foldlM Layer.goOn? (.directive none)).any (·.endsWithLine) = true) :
    IsDirective none text := by
  cases hl : text.foldlM Layer.goOn? (.directive none) with
  | none =>
    rw [hl] at h
    cases h
  | some l =>
    rw [hl] at h
    exact Layer.goesOn hl h

/-! ## Reading a directive -/

namespace State

variable (s : State)

/-- A comment in a directive ends at the first star and slash. -/
theorem run_directiveComment {body : List Char} {star : Bool} (hbody : ¬['*', '/'] <:+: body)
    (hstar : star = true → body.head? ≠ some '/') :
    (s.enter (.directiveComment star)).run (body ++ ['*', '/']) = s.enter (.directive none) := by
  induction body generalizing star with
  | nil => cases star <;> rfl
  | cons c body ih =>
    have hrest : ¬['*', '/'] <:+: body := fun h => hbody (List.infix_cons h)
    have hstep : (s.enter (.directiveComment star)).step c =
        s.enter (.directiveComment (c == '*')) := by
      have hopen : (star && c == '/') = false := by
        cases star with
        | false => rfl
        | true => simpa using hstar rfl
      change (if star && c == '/' then _ else _) = _
      rw [hopen]
      rfl
    have hnext : (c == '*') = true → body.head? ≠ some '/' := by
      intro hc he
      obtain ⟨rest, rfl⟩ := List.head?_eq_some_iff.mp he
      rw [eq_of_beq hc] at hbody
      exact hbody ⟨[], rest, rfl⟩
    rw [List.cons_append]
    change ((s.enter (.directiveComment star)).step c).run (body ++ ['*', '/']) = _
    rw [hstep]
    exact ih hrest hnext

/-- A slash in a directive is a character like any other where no star follows. -/
theorem run_directiveSlash {text : List Char} (h : text.head? ≠ some '*') :
    (s.enter .directiveSlash).run (text ++ ['\n']) =
      (s.enter (.directive none)).run (text ++ ['\n']) := by
  cases text with
  | nil => rfl
  | cons c text =>
    have hc : (c == '*') = false := by simpa using h
    have hstep : (s.enter .directiveSlash).step c = (s.enter (.directive none)).step c := by
      change (if c == '*' then _ else (s.enter .directiveSlash).directive none c) =
        (s.enter (.directive none)).directive none c
      rw [hc]
      rfl
    rw [List.cons_append]
    exact congrArg (State.run · (text ++ ['\n'])) hstep

end State

/-- The first line end behind a directive ends it. -/
theorem IsDirective.run {quote : Option Char} {text : List Char} (h : IsDirective quote text)
    (s : State) : (s.enter (.directive quote)).run (text ++ ['\n']) =
      (s.enter .plain).update (·.update .endLine) := by
  induction h with
  | nil => rfl
  | escape _ _ ih => exact ih
  | openLiteral hquote _ ih =>
    rcases hquote with rfl | rfl
    · exact ih
    · exact ih
  | @closeLiteral quote text hquote _ ih =>
    have hstep : (s.enter (.directive (some quote))).step quote = s.enter (.directive none) := by
      change State.directive (some quote) quote (s.enter (.directive (some quote))) = _
      simp only [List.mem_cons, List.not_mem_nil, or_false, not_or] at hquote
      simp [State.directive, hquote]
      rfl
    exact (congrArg (State.run · (text ++ ['\n'])) hstep).trans ih
  | @inLiteral quote c text hc _ ih =>
    have hstep : (s.enter (.directive (some quote))).step c = s.enter (.directive (some quote)) := by
      change State.directive (some quote) c (s.enter (.directive (some quote))) = _
      simp only [List.mem_cons, List.not_mem_nil, or_false, not_or] at hc
      simp [State.directive, hc]
      rfl
    exact (congrArg (State.run · (text ++ ['\n'])) hstep).trans ih
  | comment c _ ih =>
    have hbody : ¬['*', '/'] <:+: c.body := by
      rw [← contains_iff_isInfix, c.closes]
      exact Bool.false_ne_true
    have hcomment : (s.enter (.directive none)).run c.chars = s.enter (.directive none) :=
      s.run_directiveComment hbody nofun
    rw [List.append_assoc, State.run_append, hcomment]
    exact ih
  | @outside c text hc hslash _ ih =>
    by_cases hs : c = '/'
    · subst hs
      exact (s.run_directiveSlash (hslash rfl)).trans ih
    · have hstep : (s.enter (.directive none)).step c = s.enter (.directive none) := by
        change State.directive none c (s.enter (.directive none)) = _
        simp only [List.mem_cons, List.not_mem_nil, or_false, not_or] at hc
        simp [State.directive, hc, hs]
        rfl
      exact (congrArg (State.run · (text ++ ['\n'])) hstep).trans ih

/-! ## Before a directive -/

/-- Only parentheses, commas and semicolons decide what the word before them is. -/
theorem OpenScope.word_congr (s : OpenScope) (word : String) {c d : Char}
    (hc : c ∉ ['(', ')', ',', ';']) (hd : d ∉ ['(', ')', ',', ';']) :
    s.word word c = s.word word d := by
  simp only [List.mem_cons, List.not_mem_nil, or_false, not_or] at hc hd
  simp [OpenScope.word, OpenScope.declarationWord, hc, hd]

namespace State

variable {s : State} {text : List Char}

/-- Where a declaration may go on, a directive is an empty line. -/
theorem run_plainDirective (hmode : s.mode = .plain) (h : IsDirective none text) :
    (s.plain '#').run (text ++ ['\n']) = s.plain '\n' := by
  obtain ⟨mode, scope, enclosing⟩ := s
  cases hmode
  exact h.run _

/-- In the code of a source, a directive is an empty line. -/
theorem run_directive (hcode : s.mode.layer.isCode '#' = true) (h : IsDirective none text) :
    s.run ('#' :: (text ++ ['\n'])) = s.run ['\n'] := by
  change (s.step '#').run (text ++ ['\n']) = s.step '\n'
  unfold State.step
  cases hm : s.mode with
  | plain => exact run_plainDirective hm h
  | slash => exact run_plainDirective (s := (s.enter .plain).update _) rfl h
  | word word =>
    have hpart : ∀ c, c = '#' ∨ c = '\n' → isWordPart s.scope.context.parens c = false := by
      rintro c (rfl | rfl) <;>
      · simp [isWordPart]
        decide
    simp only [hpart _ (.inl rfl), hpart _ (.inr rfl), Bool.false_eq_true, if_false]
    have hword : s.scope.word (String.ofList word.reverse) '#' =
        s.scope.word (String.ofList word.reverse) '\n' :=
      s.scope.word_congr _ (by decide) (by decide)
    have hsame : (s.enter .plain).update (·.word (String.ofList word.reverse) '#') =
        (s.enter .plain).update (·.word (String.ofList word.reverse) '\n') :=
      congrArg (fun scope => { s with mode := .plain, scope }) hword
    rw [hsame]
    exact run_plainDirective rfl h
  | _ =>
    rw [hm] at hcode
    cases hcode

end State

/-! ## Sources with a directive -/

/-- A directive is read as an empty line, wherever a number sign is part of the code: between
declarations, in the middle of one, or right behind a word. -/
theorem scan_directive (tree : Node) (before directive after : String)
    (hcode : ((State.start tree).run before.toList).mode.layer.isCode '#' = true)
    (hdirective : IsDirective none directive.toList) :
    scanWithEvents (before ++ "#" ++ directive ++ "\n" ++ after) tree =
      scanWithEvents (before ++ "\n" ++ after) tree := by
  have hrun := State.run_directive hcode hdirective
  have hleft : (before ++ "#" ++ directive ++ "\n" ++ after).toList =
      before.toList ++ (('#' :: (directive.toList ++ ['\n'])) ++ after.toList) := by
    simp
  have hright : (before ++ "\n" ++ after).toList = before.toList ++ (['\n'] ++ after.toList) := by
    simp
  unfold scanWithEvents
  rw [hleft, hright, State.run_append, State.run_append, hrun, State.run_append, State.run_append]

/-- A directive of three lines right behind a word, with a comment mark in a literal, a literal mark in
a comment, and a literal that is left open. -/
theorem scan_directive_behindWord :
    ((State.start .empty).run "/* Length. */ int".toList).mode.layer.isCode '#' = true ∧
      IsDirective none "define P \"src/*.c\" '\\'' \\\n /* it's\n */ \"".toList ∧
      scanWithEvents ("/* Length. */ int" ++ "#" ++
          "define P \"src/*.c\" '\\'' \\\n /* it's\n */ \"" ++ "\n" ++ "n;") .empty =
        scanWithEvents ("/* Length. */ int" ++ "\n" ++ "n;") .empty := by
  have hcode : ((State.start .empty).run "/* Length. */ int".toList).mode.layer.isCode '#' = true := by
    decide +kernel
  have hdirective : IsDirective none
      "define P \"src/*.c\" '\\'' \\\n /* it's\n */ \"".toList :=
    isDirective_of_goOn? (by decide +kernel)
  exact ⟨hcode, hdirective, scan_directive .empty _ _ _ hcode hdirective⟩

end HeaderDocs.Scan
