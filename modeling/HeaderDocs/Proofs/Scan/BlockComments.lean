import HeaderDocs.Proofs.Scan.LineComments
import HeaderDocs.Proofs.Text.Words

/-!
# The text of a block comment

A block comment is read one character at a time, with a flag for the start of a line. What comes of
it can be said by lines: each line loses the white space and the stars at its start, the lines that
are empty then are left out until one that is not, and the end loses its white space and its stars.

* `BlockComment.text_eq_cleanText`: both ways give the same text.
* `State.mode_within`: a comment is not over before its last character.
* `State.run_comment_cleanText`: what reading a block comment does.
-/
namespace HeaderDocs.Scan

open HeaderDocs.Text

/-! ## By lines -/

/-- The lines of a comment without their decoration, from the first that is not empty. -/
def cleanLines (body : List Char) : List (List Char) :=
  ((lines body).map (·.dropWhile isDecoration)).dropWhile (·.isEmpty)

/-- The text of a comment: its clean lines, without white space and stars at the end. -/
def cleanText (body : List Char) : String :=
  let text := List.intercalate ['\n'] (cleanLines body)
  String.ofList (trimEnd (dropEndWhile (· == '*') (trimEnd text)))

theorem intercalate_nil_head (sep : Char) {pieces : List (List Char)} (h : pieces ≠ []) :
    List.intercalate [sep] ([] :: pieces) = sep :: List.intercalate [sep] pieces := by
  obtain ⟨piece, pieces, rfl⟩ := List.exists_cons_of_ne_nil h
  simp [List.intercalate_cons_cons]

/-- Decoration is taken off line by line; in the middle of a line there is none. -/
theorem undecorate_lines {body : List Char} {line : List Char} {rest : List (List Char)}
    (h : lines body = line :: rest) :
    undecorate true body =
        List.intercalate ['\n'] ((line :: rest).map (·.dropWhile isDecoration)) ∧
      undecorate false body =
        List.intercalate ['\n'] (line :: rest.map (·.dropWhile isDecoration)) := by
  induction body generalizing line rest with
  | nil =>
    cases h
    exact ⟨rfl, rfl⟩
  | cons c body ih =>
    obtain ⟨line', rest', hlines⟩ : ∃ line' rest', lines body = line' :: rest' :=
      List.exists_cons_of_ne_nil (splitWhere_ne_nil body)
    obtain ⟨hstart, hinside⟩ := ih hlines
    unfold lines at h hlines
    rw [splitWhere, hlines] at h
    by_cases hnewline : (c == '\n') = true
    · cases eq_of_beq hnewline
      cases h
      -- the line before the line feed is empty, whichever way it has begun
      have hstep : ∀ start, undecorate start ('\n' :: body) = '\n' :: undecorate true body := by
        intro start
        cases start <;> rfl
      rw [hstep, hstep, hstart]
      have hne : (line' :: rest').map (·.dropWhile isDecoration) ≠ [] := List.cons_ne_nil _ _
      exact ⟨(intercalate_nil_head '\n' hne).symm, (intercalate_nil_head '\n' hne).symm⟩
    · rw [if_neg hnewline] at h
      cases h
      have hin : undecorate false (c :: body) = c :: undecorate false body := by
        simp [undecorate, hnewline]
      refine ⟨?_, by rw [hin, hinside, List.intercalate_cons_cons_left]⟩
      by_cases hdecoration : isDecoration c = true
      · have hskip : undecorate true (c :: body) = undecorate true body := by
          simp only [isDecoration, Bool.or_eq_true] at hdecoration
          by_cases hstar : (c == '*') = true
          · simp [undecorate, hstar]
          · simp [undecorate, hstar, hnewline, hdecoration.resolve_left hstar]
        rw [hskip, hstart]
        simp [hdecoration]
      · have hkeep : undecorate true (c :: body) = c :: undecorate false body := by
          simp only [isDecoration, Bool.or_eq_true, not_or] at hdecoration
          simp [undecorate, hnewline, hdecoration]
        rw [hkeep, hinside, ← List.intercalate_cons_cons_left]
        simp [hdecoration]

/-- Leaving out the line feeds at the start is leaving out the empty lines. -/
theorem dropWhile_intercalate {pieces : List (List Char)} (h : ∀ p ∈ pieces, '\n' ∉ p) :
    (List.intercalate ['\n'] pieces).dropWhile (· == '\n') =
      List.intercalate ['\n'] (pieces.dropWhile (·.isEmpty)) := by
  induction pieces with
  | nil => rfl
  | cons piece pieces ih =>
    have hrest := ih fun p hp => h p (List.mem_cons_of_mem _ hp)
    cases piece with
    | nil =>
      rw [List.dropWhile_cons_of_pos rfl, ← hrest]
      cases pieces with
      | nil => rfl
      | cons next pieces => rw [intercalate_nil_head _ (List.cons_ne_nil _ _)]; rfl
    | cons c piece =>
      have hc : c ≠ '\n' := fun he =>
        h (c :: piece) (List.mem_cons_self ..) (he ▸ List.mem_cons_self ..)
      rw [List.dropWhile_cons_of_neg Bool.false_ne_true, List.intercalate_cons_cons_left,
        List.dropWhile_cons_of_neg (by simpa using hc)]

namespace BlockComment

/-- Reading a comment character by character gives its clean lines. -/
theorem text_eq_cleanText (c : BlockComment) : c.text = cleanText c.body := by
  obtain ⟨line, rest, hlines⟩ : ∃ line rest, lines c.body = line :: rest :=
    List.exists_cons_of_ne_nil (splitWhere_ne_nil c.body)
  have hpieces : ∀ p ∈ (lines c.body).map (·.dropWhile isDecoration), '\n' ∉ p := by
    intro p hp hmem
    obtain ⟨w, hw, rfl⟩ := List.mem_map.mp hp
    have hsplit := mem_splitWhere hw '\n' ((List.dropWhile_sublist _).subset hmem)
    exact absurd hsplit.1 (by decide)
  have hclean : (undecorate true c.body).dropWhile (· == '\n') =
      List.intercalate ['\n'] (cleanLines c.body) := by
    rw [cleanLines, ← dropWhile_intercalate hpieces, hlines, (undecorate_lines hlines).1]
  rw [BlockComment.text, cleanText, hclean]

end BlockComment

/-! ## Reading a block comment -/

namespace State

variable {t : State}

theorem not_closed_of_leading {body read : List Char} (hbody : contains ['*', '/'] body = false)
    (hread : read <+: body ++ ['*']) : ¬['*', '/'] <:+: read := by
  intro hclosed
  have hopen : ¬['*', '/'] <:+: body := by
    rw [← contains_iff_isInfix, hbody]
    exact Bool.false_ne_true
  rcases List.prefix_concat_iff.mp hread with rfl | hread
  · rcases List.infix_concat_iff.mp hclosed with hend | hinside
    · obtain ⟨before, hbefore⟩ := hend
      have hlast := congrArg List.getLast? hbefore
      simp at hlast
    · exact hopen hinside
  · exact hopen (hclosed.trans hread.isInfix)

/-- A comment is not over before its last character: until then only the mode changes. -/
theorem mode_within (hmode : t.mode = .plain) (c : BlockComment) {read rest : List Char}
    (hrest : rest ≠ []) (h : '/' :: '*' :: (read ++ rest) = c.chars) :
    ∃ mode : Mode, mode.inBlockComment = true ∧ t.run ('/' :: '*' :: read) = t.enter mode := by
  have hread : read <+: c.body ++ ['*'] := by
    obtain ⟨before, last, rfl⟩ := rest.eq_nil_or_concat'.resolve_left hrest
    simp only [BlockComment.chars, List.cons.injEq, true_and] at h
    have hconcat : (read ++ before) ++ [last] = (c.body ++ ['*']) ++ ['/'] := by simpa using h
    exact ⟨before, (List.append_inj' hconcat rfl).1⟩
  obtain ⟨mode, hrun, -, hin⟩ := @run_commentText t [] read true (by simp) (by simp)
    (not_closed_of_leading c.closes hread)
  refine ⟨mode, hin, Eq.trans ?_ hrun⟩
  obtain ⟨m, scope, enclosing⟩ := t
  cases hmode
  rfl

/-- A block comment ends at its closing mark and not before, and hands on the text of its clean
lines. Without text it changes nothing. -/
theorem run_comment_cleanText (hmode : t.mode = .plain) (c : BlockComment) :
    (∀ read rest : List Char, rest ≠ [] → '/' :: '*' :: (read ++ rest) = c.chars →
      ∃ mode : Mode, mode.inBlockComment = true ∧ t.run ('/' :: '*' :: read) = t.enter mode) ∧
    t.run c.chars = t.update (·.takeComment (cleanText c.body) false) ∧
    (t.run c.chars).mode = .plain ∧
    (cleanText c.body = "" → t.run c.chars = t) := by
  have hrun : t.run c.chars = t.update (·.takeComment (cleanText c.body) false) := by
    rw [run_comment hmode c, c.text_eq_cleanText]
  have hend : ∀ f : OpenScope → OpenScope, (t.update f).mode = t.mode := fun _ => rfl
  refine ⟨fun read rest hrest h => mode_within hmode c hrest h, hrun, ?_, fun htext => ?_⟩
  · rw [hrun, hend, hmode]
  · rw [hrun, htext]
    rfl

/-- A comment whose first lines are empty and whose last line is closed with stars. -/
theorem run_comment_decorated :
    let body := "*\n * First line *\n ** second / *".toList
    let c : BlockComment := ⟨body, by decide +kernel⟩
    let t := State.start .empty
    t.mode = .plain ∧ cleanText body = "First line *\nsecond /" ∧
      t.run c.chars = t.update (·.takeComment (cleanText body) false) := by
  intro body c t
  have htext : cleanText body = "First line *\nsecond /" := by decide +kernel
  have hmode : t.mode = .plain := rfl
  exact ⟨hmode, htext, (run_comment_cleanText hmode c).2.1⟩

end State

/-! ## In front of a declaration -/

def rawText? (comment : Option BlockComment) : Option String :=
  (comment.map (·.text)).filter (· != "")

theorem rawText?_some (c : BlockComment) :
    rawText? (some c) = if c.text = "" then none else some c.text := by
  by_cases htext : c.text = "" <;> simp [rawText?, Option.filter, htext]

/-- The comment at the beginning of a source waits for the declaration behind it. -/
theorem State.run_leading (comment : Option BlockComment) {leading before : List Char}
    (hleading : IsGap leading) (hbefore : IsGap before) (rest : List Char) :
    (start .empty).run (leading ++ (comment.elim [] (·.chars) ++ (before ++ rest))) =
      (reading (.begin .empty .source) { comment := rawText? comment }).run rest := by
  have hcomment : (reading (.begin .empty .source) {}).run (comment.elim [] (·.chars)) =
      reading (.begin .empty .source) { comment := rawText? comment } := by
    cases comment with
    | none => rfl
    | some c =>
      rw [rawText?_some]
      exact run_blockComment rfl none c
  rw [run_append, show start .empty = reading (.begin .empty .source) {} from rfl,
    run_gap_unclaimed rfl rfl hleading, run_append, hcomment, run_append,
    run_gap_unclaimed rfl rfl hbefore]

end HeaderDocs.Scan
