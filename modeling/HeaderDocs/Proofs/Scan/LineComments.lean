import HeaderDocs.Proofs.Scan.Prototypes
import Mathlib.Data.List.Chain

/-!
# Runs of line comments

Line comments that stand on lines of their own, one after the other, are read as block comments are.
Which ones depends on what the first of them goes to: comments that wait for a declaration are joined,
those that describe a return value replace each other, and at the start of a record the first one is
used up by it.

* `CommentLayout.text_comment`: a block comment holds the lines that it sets out.
* `run_lineComments`: line comments are taken one after the other.
* `EndsRun.sameResult`: only a further line comment tells whether the one before can be continued.
* `scan_lineComments`: the block comments that a run of line comments is read as.
-/
namespace HeaderDocs.Scan

open HeaderDocs.Text

/-! ## Lines -/

/-- A line of a comment, which may be empty: none of its ends is taken for decoration. -/
structure IsCommentLine (line : List Char) : Prop where
  oneLine : '\n' ∉ line ∧ '\r' ∉ line
  first : ∀ c ∈ line.head?, isSpace c = false ∧ c ≠ '*' ∧ c ≠ '/'
  last : ∀ c ∈ line.getLast?, isSpace c = false ∧ c ≠ '*'
  closes : contains ['*', '/'] line = false

structure LineComment where
  body : List Char
  oneLine : '\n' ∉ body

namespace LineComment

def chars (c : LineComment) : List Char := '/' :: '/' :: c.body

/-- The text without the slashes and exclamation marks before it. Carriage returns do not count. -/
def text (c : LineComment) : String :=
  String.ofList (trim ((c.body.filter (· != '\r')).dropWhile fun c => c == '/' || c == '!'))

end LineComment

/-- The lines of a run of comments, of which the first and the last say something. -/
structure IsCommentRun (lines : List (List Char)) : Prop where
  ne_nil : lines ≠ []
  first : lines.head? ≠ some []
  last : lines.getLast? ≠ some []
  all : ∀ line ∈ lines, IsCommentLine line

theorem isCommentLine_iff {line : List Char} : IsCommentLine line ↔
    ('\n' ∉ line ∧ '\r' ∉ line) ∧
      line.head?.all (fun c => !isSpace c && c != '*' && c != '/') = true ∧
      line.getLast?.all (fun c => !isSpace c && c != '*') = true ∧
      contains ['*', '/'] line = false := by
  simp only [Option.all_eq_true, Bool.and_eq_true, Bool.not_eq_true', bne_iff_ne, and_assoc]
  exact ⟨fun ⟨h1, h2, h3, h4⟩ => ⟨h1.1, h1.2, h2, h3, h4⟩,
    fun ⟨h1, h1', h2, h3, h4⟩ => ⟨⟨h1, h1'⟩, h2, h3, h4⟩⟩

instance (line : List Char) : Decidable (IsCommentLine line) :=
  decidable_of_iff _ isCommentLine_iff.symm

instance (lines : List (List Char)) : Decidable (IsCommentRun lines) :=
  decidable_of_iff (lines ≠ [] ∧ lines.head? ≠ some [] ∧ lines.getLast? ≠ some [] ∧
      ∀ line ∈ lines, IsCommentLine line)
    ⟨fun ⟨h1, h2, h3, h4⟩ => ⟨h1, h2, h3, h4⟩, fun ⟨h1, h2, h3, h4⟩ => ⟨h1, h2, h3, h4⟩⟩

def lineComments (lines : List (List Char)) : List Char :=
  lines.flatMap fun line => '/' :: '/' :: ' ' :: (line ++ ['\n'])

def heldLines (lines : List (List Char)) : List (List Char) := lines.filter (!·.isEmpty)

variable {line : List Char} {lines : List (List Char)}

theorem IsCommentLine.trim_eq (h : IsCommentLine line) : trim (' ' :: line) = line := by
  have hstart : trimStart (' ' :: line) = line := by
    rw [trimStart, List.dropWhile_cons_of_pos (by decide)]
    cases line with
    | nil => rfl
    | cons c cs => exact trimStart_eq_self (h.first c rfl).1 cs
  rw [trim, hstart, trimEnd]
  rcases List.eq_nil_or_concat' line with rfl | ⟨init, c, rfl⟩
  · rfl
  · have hlast := (h.last c (by simp)).1
    rw [dropEndWhile_concat, hlast, if_neg Bool.false_ne_true]

theorem ne_nil_of_mem_heldLines (h : line ∈ heldLines lines) : line ≠ [] := by
  simpa using (List.mem_filter.mp h).2

theorem mem_of_mem_heldLines (h : line ∈ heldLines lines) : line ∈ lines :=
  List.mem_of_mem_filter h

theorem IsCommentRun.eq_cons (h : IsCommentRun lines) :
    ∃ first rest, lines = first :: rest ∧ first ≠ [] := by
  obtain ⟨first, rest, rfl⟩ := List.exists_cons_of_ne_nil h.ne_nil
  exact ⟨first, rest, rfl, fun hfirst => h.first (congrArg some hfirst)⟩

theorem IsCommentRun.eq_concat (h : IsCommentRun lines) :
    ∃ init last, lines = init ++ [last] ∧ last ≠ [] := by
  obtain rfl | ⟨init, last, rfl⟩ := List.eq_nil_or_concat' lines
  · exact absurd rfl h.ne_nil
  · exact ⟨init, last, rfl, fun hlast => h.last (by simp [hlast])⟩

theorem IsCommentRun.heldLines_ne_nil (h : IsCommentRun lines) : heldLines lines ≠ [] := by
  obtain ⟨first, rest, rfl, hfirst⟩ := h.eq_cons
  have hmem : first ∈ heldLines (first :: rest) :=
    List.mem_filter.mpr ⟨List.mem_cons_self .., by simpa using hfirst⟩
  exact List.ne_nil_of_mem hmem

/-! ## Lines in block comments -/

/-- Stars and white space. -/
def isDecoration (c : Char) : Bool := c == '*' || isSpace c

structure CommentLayout where
  opening : List Char := [' ']
  /-- What stands before every line but the first. -/
  margin : List Char := [' ', '*', ' ']
  closing : List Char := [' ']
  opening_decoration : opening.all isDecoration = true := by decide
  margin_decoration : margin.all (fun c => isDecoration c && c != '\n') = true := by decide
  closing_space : closing.all isSpace = true := by decide

namespace CommentLayout

theorem isDecoration_opening (layout : CommentLayout) :
    ∀ c ∈ layout.opening, isDecoration c = true := List.all_eq_true.mp layout.opening_decoration

theorem isDecoration_margin (layout : CommentLayout) :
    ∀ c ∈ layout.margin, isDecoration c = true ∧ c ≠ '\n' := by
  simpa using layout.margin_decoration

theorem isSpace_closing (layout : CommentLayout) : ∀ c ∈ layout.closing, isSpace c = true :=
  List.all_eq_true.mp layout.closing_space

/-- What stands between the marks of a block comment that holds the lines. -/
def body (layout : CommentLayout) (lines : List (List Char)) : List Char :=
  layout.opening ++ (('\n' :: layout.margin).intercalate lines ++ layout.closing)

def chars (layout : CommentLayout) (lines : List (List Char)) : List Char :=
  '/' :: '*' :: (layout.body lines ++ ['*', '/'])

end CommentLayout

/-- No two characters of a text end a block comment. -/
abbrev Unclosed : List Char → Prop := List.IsChain fun a b => ¬(a = '*' ∧ b = '/')

theorem contains_close_iff {cs : List Char} : contains ['*', '/'] cs = false ↔ Unclosed cs := by
  rw [← Bool.not_eq_true, contains_iff_isInfix, Unclosed,
    List.isChain_iff_forall_rel_of_append_cons_cons]
  constructor
  · rintro h a b before after rfl ⟨rfl, rfl⟩
    exact h ⟨before, after, by simp⟩
  · rintro h ⟨before, after, rfl⟩
    exact h (show before ++ ['*', '/'] ++ after = before ++ '*' :: '/' :: after by simp) ⟨rfl, rfl⟩

theorem unclosed_of_notMem {cs : List Char} (h : '/' ∉ cs) : Unclosed cs := by
  rw [Unclosed, List.isChain_iff_forall_rel_of_append_cons_cons]
  rintro a b before after rfl ⟨-, rfl⟩
  exact h (by simp)

theorem slash_notMem {cs : List Char} (h : ∀ c ∈ cs, isDecoration c = true) : '/' ∉ cs :=
  fun hmem => absurd (h '/' hmem) (by decide)

theorem unclosed_intercalate {margin : List Char} (hmargin : '/' ∉ margin)
    (hlines : ∀ line ∈ lines, IsCommentLine line ∧ line ≠ []) :
    Unclosed (('\n' :: margin).intercalate lines) ∧
      ∀ c ∈ (('\n' :: margin).intercalate lines).head?, c ≠ '/' := by
  induction lines with
  | nil => exact ⟨.nil, nofun⟩
  | cons line lines ih =>
    obtain ⟨hline, hne⟩ := hlines line (List.mem_cons_self ..)
    have hfirst : ∀ c ∈ line.head?, c ≠ '/' := fun c hc => (hline.first c hc).2.2
    cases lines with
    | nil => simpa [List.intercalate] using ⟨contains_close_iff.mp hline.closes, hfirst⟩
    | cons next lines =>
      obtain ⟨hrest, hhead⟩ := ih fun l hl => hlines l (List.mem_cons_of_mem _ hl)
      rw [List.intercalate_cons_cons, List.append_assoc]
      have hbreak : '/' ∉ '\n' :: margin := by simp [hmargin]
      constructor
      · refine (contains_close_iff.mp hline.closes).append ?_ ?_
        · exact (unclosed_of_notMem hbreak).append hrest fun a _ b hb hab => hhead b hb hab.2
        · rintro a - b hb ⟨-, rfl⟩
          simp at hb
      · intro c hc
        rw [List.head?_append_of_ne_nil _ hne] at hc
        exact hfirst c hc

/-! ## What a block comment holds -/

theorem undecorate_decoration {cs : List Char} (h : ∀ c ∈ cs, isDecoration c = true)
    (rest : List Char) :
    undecorate true (cs ++ rest) = cs.filter (· == '\n') ++ undecorate true rest := by
  induction cs with
  | nil => rfl
  | cons c cs ih =>
    have hrest := ih fun d hd => h d (List.mem_cons_of_mem _ hd)
    have hc := h c (List.mem_cons_self ..)
    rw [List.cons_append, undecorate]
    by_cases hstar : c = '*'
    · simpa [hstar] using hrest
    · by_cases hnewline : c = '\n'
      · simp [hnewline, hrest]
      · have hspace : isSpace c = true := by simpa [isDecoration, hstar] using hc
        simp [hstar, hnewline, hspace, hrest]

theorem undecorate_inLine (h : '\n' ∉ line) (rest : List Char) :
    undecorate false (line ++ rest) = line ++ undecorate false rest := by
  induction line with
  | nil => rfl
  | cons c cs ih =>
    simp only [List.mem_cons, not_or] at h
    have hc : (c == '\n') = false := beq_eq_false_iff_ne.mpr (Ne.symm h.1)
    rw [List.cons_append, undecorate, ih h.2]
    simp [hc]

theorem undecorate_line (h : IsCommentLine line) (hne : line ≠ []) (rest : List Char) :
    undecorate true (line ++ rest) = line ++ undecorate false rest := by
  cases line with
  | nil => exact absurd rfl hne
  | cons c cs =>
    obtain ⟨hspace, hstar, -⟩ := h.first c rfl
    have hnewline : c ≠ '\n' := fun hc => h.oneLine.1 (by simp [hc])
    have hcs : '\n' ∉ cs := fun hc => h.oneLine.1 (List.mem_cons_of_mem _ hc)
    rw [List.cons_append, undecorate, undecorate_inLine hcs]
    simp [hspace, hstar, hnewline]

theorem undecorate_intercalate {margin : List Char}
    (hmargin : ∀ c ∈ margin, isDecoration c = true ∧ c ≠ '\n')
    (hlines : ∀ line ∈ lines, IsCommentLine line ∧ line ≠ []) (hne : lines ≠ [])
    (rest : List Char) :
    undecorate true (('\n' :: margin).intercalate lines ++ rest) =
      ['\n'].intercalate lines ++ undecorate false rest := by
  induction lines with
  | nil => exact absurd rfl hne
  | cons line lines ih =>
    obtain ⟨hline, hline'⟩ := hlines line (List.mem_cons_self ..)
    cases lines with
    | nil => simpa [List.intercalate] using undecorate_line hline hline' rest
    | cons next lines =>
      have hrest := ih (fun l hl => hlines l (List.mem_cons_of_mem _ hl)) (List.cons_ne_nil _ _)
      have hnone : margin.filter (· == '\n') = [] :=
        List.filter_eq_nil_iff.mpr fun c hc => by simpa using (hmargin c hc).2
      rw [List.intercalate_cons_cons, List.intercalate_cons_cons, List.append_assoc,
        List.append_assoc, undecorate_line hline hline', List.cons_append, undecorate]
      simp [undecorate_decoration (fun c hc => (hmargin c hc).1), hnone, hrest]

theorem all_isSpace_undecorate {cs : List Char} (h : ∀ c ∈ cs, isSpace c = true)
    (lineStart : Bool) : ∀ c ∈ undecorate lineStart cs, isSpace c = true := by
  induction cs generalizing lineStart with
  | nil => exact nofun
  | cons c cs ih =>
    have hrest := ih fun d hd => h d (List.mem_cons_of_mem _ hd)
    have hc := h c (List.mem_cons_self ..)
    unfold undecorate
    split
    · exact hrest true
    · split
      · exact List.forall_mem_cons.mpr ⟨by decide, hrest true⟩
      · split
        · exact hrest true
        · exact List.forall_mem_cons.mpr ⟨hc, hrest false⟩

theorem intercalate_ne_nil (hlines : ∀ line ∈ lines, IsCommentLine line ∧ line ≠ [])
    (hne : lines ≠ []) : ['\n'].intercalate lines ≠ [] := by
  cases lines with
  | nil => exact absurd rfl hne
  | cons line lines =>
    have hline := (hlines line (List.mem_cons_self ..)).2
    cases lines <;> simp [List.intercalate, hline]

theorem ends_intercalate (hlines : ∀ line ∈ lines, IsCommentLine line ∧ line ≠ []) :
    (∀ c ∈ (['\n'].intercalate lines).head?, isSpace c = false) ∧
      ∀ c ∈ (['\n'].intercalate lines).getLast?, isSpace c = false ∧ c ≠ '*' := by
  induction lines with
  | nil => exact ⟨nofun, nofun⟩
  | cons line lines ih =>
    obtain ⟨hline, hne⟩ := hlines line (List.mem_cons_self ..)
    cases lines with
    | nil => simpa [List.intercalate] using ⟨fun c hc => (hline.first c hc).1, hline.last⟩
    | cons next lines =>
      have hrest : ∀ l ∈ next :: lines, IsCommentLine l ∧ l ≠ [] :=
        fun l hl => hlines l (List.mem_cons_of_mem _ hl)
      have hnext := intercalate_ne_nil hrest (List.cons_ne_nil _ _)
      rw [List.intercalate_cons_cons]
      refine ⟨fun c hc => ?_, fun c hc => ?_⟩
      · rw [List.append_assoc, List.head?_append_of_ne_nil _ hne] at hc
        exact (hline.first c hc).1
      · rw [List.getLast?_append_of_ne_nil _ hnext] at hc
        exact (ih hrest).2 c hc

namespace CommentLayout

variable {layout : CommentLayout}

theorem closes_body (layout : CommentLayout)
    (hlines : ∀ line ∈ lines, IsCommentLine line ∧ line ≠ []) :
    contains ['*', '/'] (layout.body lines) = false := by
  have hopening := slash_notMem layout.isDecoration_opening
  have hmargin := slash_notMem fun c hc => (layout.isDecoration_margin c hc).1
  have hclosing : '/' ∉ layout.closing := fun hc =>
    absurd (layout.isSpace_closing _ hc) (by decide)
  obtain ⟨htext, hhead⟩ := unclosed_intercalate hmargin hlines
  refine contains_close_iff.mpr ((unclosed_of_notMem hopening).append ?_ ?_)
  · refine htext.append (unclosed_of_notMem hclosing) ?_
    rintro a - b hb ⟨-, rfl⟩
    exact hclosing (List.mem_of_mem_head? hb)
  · rintro a - b hb ⟨-, rfl⟩
    rw [Option.mem_def, List.head?_append] at hb
    cases hlines : (('\n' :: layout.margin).intercalate lines).head? with
    | some c =>
      rw [hlines] at hb
      exact hhead c hlines (Option.some.inj hb)
    | none =>
      rw [hlines] at hb
      exact hclosing (List.mem_of_mem_head? hb)

def comment (layout : CommentLayout) (lines : List (List Char))
    (hlines : ∀ line ∈ lines, IsCommentLine line ∧ line ≠ []) : BlockComment :=
  ⟨layout.body lines, layout.closes_body hlines⟩

theorem text_comment (layout : CommentLayout)
    (hlines : ∀ line ∈ lines, IsCommentLine line ∧ line ≠ []) (hne : lines ≠ []) :
    (layout.comment lines hlines).text = String.ofList (['\n'].intercalate lines) := by
  obtain ⟨hfirst, hlast⟩ := ends_intercalate hlines
  have hdrop : (layout.opening.filter (· == '\n') ++ (['\n'].intercalate lines ++
      undecorate false layout.closing)).dropWhile (· == '\n') =
        ['\n'].intercalate lines ++ undecorate false layout.closing := by
    rw [List.dropWhile_append_of_pos fun c hc => (List.mem_filter.mp hc).2]
    cases htext : ['\n'].intercalate lines with
    | nil => exact absurd htext (intercalate_ne_nil hlines hne)
    | cons c cs =>
      have hspace := hfirst c (by rw [htext]; rfl)
      have hnewline : c ≠ '\n' := by
        rintro rfl
        exact absurd hspace (by decide)
      rw [List.cons_append, List.dropWhile_cons_of_neg (by simpa using hnewline)]
  unfold BlockComment.text CommentLayout.comment CommentLayout.body
  rw [undecorate_decoration layout.isDecoration_opening,
    undecorate_intercalate layout.isDecoration_margin hlines hne]
  simp only [hdrop]
  unfold trimEnd
  rw [dropEndWhile_append (all_isSpace_undecorate layout.isSpace_closing false),
    dropEndWhile_eq_self fun c hc => (hlast c hc).1,
    dropEndWhile_eq_self fun c hc => beq_eq_false_iff_ne.mpr (hlast c hc).2,
    dropEndWhile_eq_self fun c hc => (hlast c hc).1]

end CommentLayout

/-! ## Where a comment goes -/

/-- What a comment goes to that does not follow a declaration on its line. -/
inductive Addressee where
  /-- The record whose body begins. -/
  | record
  /-- The return value of the function whose type is being read. -/
  | returnValue
  /-- The next declaration. -/
  | declaration
deriving DecidableEq, Repr

namespace OpenScope

variable {s : OpenScope}

def addressee (s : OpenScope) : Addressee :=
  let c := s.context
  if c.braces == 0 && s.node.kind.isRecord && s.node.descriptionText.isEmpty then .record
  else if !c.run.isEmpty && c.header.isNone && !c.inEnumeration then .returnValue
  else .declaration

theorem takeComment_unclaimed (hclaim : s.context.claim = none) {text : String} (htext : text ≠ "")
    (line : Bool) :
    s.takeComment text line =
      match s.addressee with
      | .record =>
        if Comment.isPrivate text then { s.describe text with attached := false } else s.describe text
      | .returnValue => s.update ({ · with runComment := some text })
      | .declaration =>
        let joined := match s.context.comment with
          | some before => if line && s.context.joinable then before ++ "\n" ++ text else text
          | none => text
        s.update ({ · with comment := some joined, joinable := line }) := by
  unfold takeComment addressee
  simp only [String.isEmpty_iff, htext, if_false, hclaim]
  split
  · rfl
  · split <;> rfl

theorem takeComment_record (haddressee : s.addressee = .record) (hclaim : s.context.claim = none)
    {text : String} (htext : text ≠ "") (line : Bool) :
    s.takeComment text line =
      if Comment.isPrivate text then { s.describe text with attached := false }
      else s.describe text := by
  rw [takeComment_unclaimed hclaim htext, haddressee]

theorem takeComment_returnValue (haddressee : s.addressee = .returnValue)
    (hclaim : s.context.claim = none) {text : String} (htext : text ≠ "") (line : Bool) :
    s.takeComment text line = s.update ({ · with runComment := some text }) := by
  rw [takeComment_unclaimed hclaim htext, haddressee]

theorem takeComment_declaration (haddressee : s.addressee = .declaration)
    (hclaim : s.context.claim = none) {text : String} (htext : text ≠ "") {line : Bool}
    (hjoin : (line && s.context.joinable) = false) :
    s.takeComment text line = s.update ({ · with comment := some text, joinable := line }) := by
  rw [takeComment_unclaimed hclaim htext, haddressee]
  cases hcomment : s.context.comment <;> simp [hjoin]

theorem takeComment_joinable (haddressee : s.addressee = .declaration)
    (hclaim : s.context.claim = none) {before text : String} (htext : text ≠ "")
    (hcomment : s.context.comment = some before) (hjoinable : s.context.joinable = true) :
    s.takeComment text true =
      s.update ({ · with comment := some (before ++ "\n" ++ text), joinable := true }) := by
  rw [takeComment_unclaimed hclaim htext, haddressee]
  simp [hcomment, hjoinable]

theorem joinable_describe (raw : String) : (s.describe raw).context.joinable = s.context.joinable := by
  unfold describe
  dsimp only
  split
  · exact congrArg (·.2.2.2.2.1) (frame_removeAt s _)
  · rfl

def takeLines (lines : List (List Char)) (s : OpenScope) : OpenScope :=
  lines.foldl (fun s line => (s.takeComment (String.ofList line) true).update .endLine) s

/-- Nothing of an earlier line is described or continued. -/
structure AtLineStart (s : OpenScope) : Prop where
  claim : s.context.claim = none
  joinable : s.context.joinable = false

theorem endLine_eq_self (h : s.context.claim = none) : s.update .endLine = s := by
  obtain ⟨node, origin, attached, context, suspended, declared, events⟩ := s
  simp only at h
  simp [update, Context.endLine, ← h]

theorem nextLine_eq_self (h : s.AtLineStart) :
    (s.update fun c => { c with claim := none, joinable := false }) = s := by
  obtain ⟨hclaim, hjoinable⟩ := h
  obtain ⟨node, origin, attached, context, suspended, declared, events⟩ := s
  simp only at hclaim hjoinable
  simp [update, ← hclaim, ← hjoinable]

theorem takeComment_empty (line : Bool) : s.takeComment (String.ofList []) line = s := rfl

theorem ofList_ne_empty {line : List Char} (h : line ≠ []) : String.ofList line ≠ "" := by
  simpa using h

/-- The record takes the first comment as it takes a block comment. -/
theorem takeLines_record (haddressee : s.addressee = .record) (h : s.AtLineStart)
    (hline : line ≠ []) :
    s.takeLines (line :: lines) = takeLines lines ((s.takeComment (String.ofList line) false).update
      fun c => { c with claim := none, joinable := false }) := by
  have htake := takeComment_record haddressee h.claim (ofList_ne_empty hline)
  have hjoinable : (s.takeComment (String.ofList line) false).context.joinable = false := by
    rw [htake]
    split
    · exact (joinable_describe (String.ofList line)).trans h.joinable
    · exact (joinable_describe (String.ofList line)).trans h.joinable
  rw [takeLines, List.foldl_cons, htake true, ← htake false]
  generalize s.takeComment (String.ofList line) false = taken at hjoinable
  have hend : taken.update .endLine =
      taken.update fun c => { c with claim := none, joinable := false } := by
    obtain ⟨node, origin, attached, context, suspended, declared, events⟩ := taken
    obtain ⟨⟩ := context
    cases hjoinable
    rfl
  rw [hend, takeLines]

/-- Of the comments of a return value the last one stays. -/
theorem takeLines_returnValue (haddressee : s.addressee = .returnValue) (h : s.context.claim = none)
    {init : List (List Char)} (hline : line ≠ []) :
    s.takeLines (init ++ [line]) = s.update ({ · with runComment := some (String.ofList line) }) := by
  induction init generalizing s with
  | nil =>
    rw [List.nil_append, takeLines, List.foldl_cons, List.foldl_nil,
      takeComment_returnValue haddressee h (ofList_ne_empty hline), endLine_eq_self (by exact h)]
  | cons first init ih =>
    rw [List.cons_append, takeLines, List.foldl_cons, ← takeLines]
    by_cases hfirst : first = []
    · rw [hfirst, takeComment_empty, endLine_eq_self h]
      exact ih haddressee h
    · rw [takeComment_returnValue haddressee h (ofList_ne_empty hfirst), endLine_eq_self (by exact h)]
      exact ih (s := s.update ({ · with runComment := some (String.ofList first) })) haddressee h

/-- Lines are joined to a comment that waits. -/
theorem takeLines_joinable (haddressee : s.addressee = .declaration) (hclaim : s.context.claim = none)
    (text : List Char) :
    (s.update ({ · with comment := some (String.ofList text), joinable := true })).takeLines lines =
      s.update ({ · with
        comment := some (String.ofList (text ++ (heldLines lines).flatMap ('\n' :: ·)))
        joinable := true }) := by
  induction lines generalizing text with
  | nil => simp [takeLines, heldLines]
  | cons line lines ih =>
    rw [takeLines, List.foldl_cons, ← takeLines]
    by_cases hline : line = []
    · subst hline
      rw [takeComment_empty, endLine_eq_self (by exact hclaim)]
      exact ih text
    · have hheld : heldLines (line :: lines) = line :: heldLines lines :=
        List.filter_cons_of_pos (by simpa using hline)
      have hjoined : String.ofList text ++ "\n" ++ String.ofList line =
          String.ofList (text ++ '\n' :: line) := by
        apply String.toList_inj.mp
        simp
      have htake := takeComment_joinable
        (s := s.update ({ · with comment := some (String.ofList text), joinable := true }))
        haddressee hclaim (ofList_ne_empty hline) rfl rfl
      rw [htake, endLine_eq_self (by exact hclaim), hjoined, hheld, List.flatMap_cons,
        ← List.append_assoc]
      exact ih (text ++ '\n' :: line)

/-- The lines wait for the next declaration, joined. -/
theorem takeLines_declaration (haddressee : s.addressee = .declaration) (h : s.AtLineStart)
    (hline : line ≠ []) :
    s.takeLines (line :: lines) = s.update ({ · with
      comment := some (String.ofList (['\n'].intercalate (heldLines (line :: lines))))
      joinable := true }) := by
  have hheld : heldLines (line :: lines) = line :: heldLines lines :=
    List.filter_cons_of_pos (by simpa using hline)
  have hjoined : ∀ (held : List (List Char)) (first : List Char),
      ['\n'].intercalate (first :: held) = first ++ held.flatMap ('\n' :: ·) := by
    intro held
    induction held with
    | nil => simp [List.intercalate]
    | cons next held ih =>
      intro first
      rw [List.intercalate_cons_cons, ih]
      simp
  rw [takeLines, List.foldl_cons, ← takeLines,
    takeComment_declaration haddressee h.claim (ofList_ne_empty hline) (by simp [h.joinable]),
    endLine_eq_self (by exact h.claim), takeLines_joinable haddressee h.claim, hheld, hjoined]

end OpenScope

/-! ## Reading comments -/

namespace State

variable {t : State}

theorem mode_update (f : OpenScope → OpenScope) (t : State) : (t.update f).mode = t.mode := rfl

theorem update_update (f g : OpenScope → OpenScope) (t : State) :
    (t.update f).update g = t.update fun s => g (f s) := rfl

theorem update_congr {f g : OpenScope → OpenScope} (h : f t.scope = g t.scope) :
    t.update f = t.update g := by
  rw [update, update, h]

/-- The text of a line comment. Carriage returns are passed over. -/
theorem run_lineText (h : '\n' ∉ line) (text : List Char) :
    (t.enter (.lineComment text)).run line =
      t.enter (.lineComment ((line.filter (· != '\r')).reverse ++ text)) := by
  induction line generalizing text with
  | nil => rfl
  | cons c cs ih =>
    simp only [List.mem_cons, not_or] at h
    have hline : (c == '\n') = false := by simpa using Ne.symm h.1
    change ((t.enter (.lineComment text)).step c).run cs = _
    by_cases hc : c = '\r'
    · subst hc
      have hstep : (t.enter (.lineComment text)).step '\r' = t.enter (.lineComment text) := rfl
      rw [hstep, ih h.2]
      rfl
    · have hstep : (t.enter (.lineComment text)).step c = t.enter (.lineComment (c :: text)) := by
        change (if c == '\n' then _ else if c == '\r' then _ else _) = _
        rw [hline, if_neg Bool.false_ne_true, if_neg (by simpa using hc)]
        rfl
      rw [hstep, ih h.2, List.filter_cons_of_pos (by simpa using hc)]
      simp

theorem run_lineRemark (hmode : t.mode = .plain) (c : LineComment) :
    t.run (c.chars ++ ['\n']) = t.update fun s => (s.takeComment c.text true).update .endLine := by
  have hopen : t.run (c.chars ++ ['\n']) = (t.enter (.lineComment [])).run (c.body ++ ['\n']) := by
    obtain ⟨mode, scope, enclosing⟩ := t
    cases hmode
    rfl
  rw [hopen, run_append, run_lineText c.oneLine, List.append_nil]
  change (t.enter (.lineComment _)).endLineComment _ = _
  obtain ⟨mode, scope, enclosing⟩ := t
  cases hmode
  rw [endLineComment, List.reverse_reverse]
  rfl

theorem run_lineComment (hmode : t.mode = .plain) (hline : IsCommentLine line) :
    t.run ('/' :: '/' :: ' ' :: (line ++ ['\n'])) =
      t.update fun s => (s.takeComment (String.ofList line) true).update .endLine := by
  let comment : LineComment := ⟨' ' :: line, by simp [hline.oneLine.1]⟩
  have hkept : line.filter (· != '\r') = line :=
    List.filter_eq_self.mpr fun c hc => bne_iff_ne.mpr fun he => hline.oneLine.2 (he ▸ hc)
  have htext : comment.text = String.ofList line := by
    rw [LineComment.text, show comment.body = ' ' :: line from rfl,
      List.filter_cons_of_pos (by decide), hkept]
    exact congrArg String.ofList hline.trim_eq
  rw [← htext]
  exact run_lineRemark hmode comment

theorem run_lineComments (hmode : t.mode = .plain) (hlines : ∀ line ∈ lines, IsCommentLine line) :
    t.run (lineComments lines) = t.update (·.takeLines lines) := by
  induction lines generalizing t with
  | nil => rfl
  | cons line lines ih =>
    rw [lineComments, List.flatMap_cons, ← lineComments, run_append,
      run_lineComment hmode (hlines line (List.mem_cons_self ..))]
    exact ih (t := t.update _) hmode fun l hl => hlines l (List.mem_cons_of_mem _ hl)

theorem run_newline (hmode : t.mode = .plain) :
    t.run ['\n'] = t.update (·.update fun c => { c with claim := none, joinable := false }) := by
  obtain ⟨mode, scope, enclosing⟩ := t
  cases hmode
  rfl

theorem run_commentLine (hmode : t.mode = .plain) (c : BlockComment) :
    t.run (c.chars ++ ['\n']) = t.update fun s =>
      (s.takeComment c.text false).update fun c => { c with claim := none, joinable := false } := by
  have htaken := (mode_update (·.takeComment c.text false) t).trans hmode
  rw [run_append, run_comment hmode, run_newline htaken, update_update]

/-- A line feed of the code ends what could be described or continued. -/
theorem atLineStart_step (h : t.mode.layer.isCode '\n' = true) :
    (t.step '\n').mode = .plain ∧ (t.step '\n').scope.AtLineStart := by
  obtain ⟨mode, scope, enclosing⟩ := t
  cases mode with
  | plain => exact ⟨rfl, rfl, rfl⟩
  | slash => exact ⟨rfl, rfl, rfl⟩
  | word text => exact ⟨rfl, rfl, rfl⟩
  | _ => cases h

end State

/-- The text is empty or ends with a line feed of the code. -/
def EndsLine (text : List Char) : Prop :=
  text = [] ∨ ∃ before, text = before ++ ['\n'] ∧ (before.foldl Layer.next .code).isCode '\n' = true

theorem EndsLine.atLineStart {text : List Char} (h : EndsLine text) (tree : Node) :
    ((State.start tree).run text).mode = .plain ∧
      ((State.start tree).run text).scope.AtLineStart := by
  have hlayer : ∀ (text : List Char) {t : State} {l : Layer}, t.ReadsIn l →
      (t.run text).ReadsIn (text.foldl Layer.next l) := by
    intro text
    induction text with
    | nil => exact id
    | cons c cs ih => exact fun ht => ih (State.layer_step ht c)
  obtain rfl | ⟨before, rfl, hcode⟩ := h
  · exact ⟨rfl, rfl, rfl⟩
  · rw [State.run_append]
    refine State.atLineStart_step ?_
    rw [(hlayer before (State.readsIn_code rfl)).1]
    exact hcode

/-! ## What follows a run -/

/-- What follows a run of line comments and does not continue it: no line comment comes first on the
next line, at most after block comments without text. -/
inductive EndsRun : List Char → Prop
  | nil : EndsRun []
  | newline (rest : List Char) : EndsRun ('\n' :: rest)
  | space {c : Char} {rest : List Char} :
      isSpace c = true → c ≠ '\n' → EndsRun rest → EndsRun (c :: rest)
  | code {c : Char} (rest : List Char) : isSpace c = false → c ≠ '/' → EndsRun (c :: rest)
  | slash {rest : List Char} :
      rest.head? ≠ some '/' → rest.head? ≠ some '*' → EndsRun ('/' :: rest)
  | comment (c : BlockComment) {rest : List Char} :
      (c.text = "" → EndsRun rest) → EndsRun (c.chars ++ rest)
  | unclosed {body : List Char} : contains ['*', '/'] body = false → EndsRun ('/' :: '*' :: body)

namespace State

variable {t u : State}

theorem run_unclosed (hmode : t.mode = .plain) {body : List Char}
    (hbody : contains ['*', '/'] body = false) :
    ∃ mode, t.run ('/' :: '*' :: body) = t.enter mode := by
  have hclose : ¬['*', '/'] <:+: body := by
    rw [← contains_iff_isInfix, hbody]
    exact Bool.false_ne_true
  obtain ⟨mode, hread, -⟩ := @run_commentText t [] body true (by simp) (by simp) hclose
  refine ⟨mode, Eq.trans ?_ hread⟩
  obtain ⟨m, scope, enclosing⟩ := t
  cases hmode
  rfl

theorem step_space {c : Char} (hmode : t.mode = .plain) (hspace : isSpace c = true) (hne : c ≠ '\n') :
    t.step c = t := by
  unfold step plain
  simp [hmode, hspace, hne]

theorem step_code {c : Char} (hmode : t.mode = .plain) (hspace : isSpace c = false) (hne : c ≠ '/') :
    t.step c = (t.update (·.update ({ · with joinable := false }))).mark c := by
  have hnewline : c ≠ '\n' := by
    rintro rfl
    exact absurd hspace (by decide)
  unfold step plain
  simp [hmode, hspace, hne, hnewline]

theorem step_slash (hmode : t.mode = .plain) : t.step '/' = t.enter .slash := by
  obtain ⟨mode, scope, enclosing⟩ := t
  cases hmode
  rfl

theorem step_afterSlash {c : Char} (hslash : c ≠ '/') (hstar : c ≠ '*') :
    (t.enter .slash).step c =
      ((t.enter .plain).update (·.update fun c => { c with joinable := false }.pushMark "/")).plain c := by
  unfold step
  simp [enter, hstar, hslash]

/-- The same tree and the same events come of both states. -/
structure SameResult (t u : State) : Prop where
  node : t.result.node = u.result.node
  events : t.result.events = u.result.events

theorem sameResult_of_eq (h : t = u) : SameResult t u := h ▸ ⟨rfl, rfl⟩

/-- The innermost context does not matter at the end of a source. -/
theorem sameResult_enter (f : Context → Context) (mode mode' : Mode) :
    SameResult ((t.update (·.update f)).enter mode) (t.enter mode') := by
  obtain ⟨m, scope, enclosing⟩ := t
  cases enclosing with
  | nil => exact ⟨rfl, rfl⟩
  | cons outer enclosing => exact ⟨rfl, rfl⟩

end State

/-- Where no line comment follows, it does not matter whether one would be joined. -/
theorem EndsRun.sameResult {rest : List Char} (h : EndsRun rest) {t : State}
    (hmode : t.mode = .plain) (hclaim : t.scope.context.claim = none)
    (haddressee : t.scope.addressee = .declaration) (joinable : Bool) :
    ((t.update (·.update ({ · with joinable }))).run rest).SameResult (t.run rest) := by
  have hresult := State.sameResult_enter (t := t) ({ · with joinable })
  generalize hu : t.update (·.update ({ · with joinable })) = u at hresult ⊢
  have humode : u.mode = .plain := hu ▸ hmode
  have hupdate : ∀ f : Context → Context, (∀ c, f { c with joinable } = f c) →
      u.update (·.update f) = t.update (·.update f) := by
    rintro f hf
    have hcontext := hf t.scope.context
    simp only [← hu, State.update, OpenScope.update, hcontext]
  have hsame : ∀ {s : State}, s.mode = .plain → s.enter .plain = s := by
    rintro ⟨mode, scope, enclosing⟩ ⟨⟩
    rfl
  induction h with
  | nil =>
    have hend := hresult .plain .plain
    rwa [hsame humode, hsame hmode] at hend
  | newline rest =>
    refine State.sameResult_of_eq ?_
    rw [← List.singleton_append, State.run_append, State.run_append, State.run_newline humode,
      State.run_newline hmode, hupdate _ fun c => rfl]
  | @space c rest hspace hne _ ih =>
    change ((u.step c).run rest).SameResult ((t.step c).run rest)
    rw [State.step_space humode hspace hne, State.step_space hmode hspace hne]
    exact ih
  | @code c rest hspace hne =>
    refine State.sameResult_of_eq ?_
    change (u.step c).run rest = (t.step c).run rest
    rw [State.step_code humode hspace hne, State.step_code hmode hspace hne,
      hupdate _ fun c => rfl]
  | @slash rest hslash hstar =>
    change ((u.step '/').run rest).SameResult ((t.step '/').run rest)
    rw [State.step_slash humode, State.step_slash hmode]
    cases rest with
    | nil => exact hresult .slash .slash
    | cons c rest =>
      refine State.sameResult_of_eq ?_
      change ((u.enter .slash).step c).run rest = ((t.enter .slash).step c).run rest
      have hslash : c ≠ '/' := fun hc => hslash (congrArg some hc)
      have hstar : c ≠ '*' := fun hc => hstar (congrArg some hc)
      rw [State.step_afterSlash hslash hstar, State.step_afterSlash hslash hstar, hsame humode,
        hsame hmode, hupdate _ fun c => rfl]
  | @comment c rest _ ih =>
    rw [State.run_append, State.run_append, State.run_comment humode, State.run_comment hmode]
    by_cases htext : c.text = ""
    · have hnothing : ∀ s : State, s.update (·.takeComment c.text false) = s := by
        intro s
        rw [htext]
        rfl
      rw [hnothing, hnothing]
      exact ih htext
    · have htake : ∀ s : State, s.scope.context.claim = none → s.scope.addressee = .declaration →
          s.update (·.takeComment c.text false) =
            s.update (·.update ({ · with comment := some c.text, joinable := false })) :=
        fun s hs hs' => State.update_congr (OpenScope.takeComment_declaration hs' hs htext rfl)
      have hutake := htake u (hu ▸ hclaim) (hu ▸ haddressee)
      rw [hutake, htake t hclaim haddressee, hupdate _ fun c => rfl]
      exact State.sameResult_of_eq rfl
  | unclosed hbody =>
    obtain ⟨mode, hread⟩ := State.run_unclosed hmode hbody
    obtain ⟨umode, huread⟩ := State.run_unclosed humode hbody
    rw [hread, huread]
    exact hresult umode mode

/-! ## Runs of line comments -/

/-- The block comments that a run of line comments is read as, each with the end of its line. -/
def asBlocks (layout : CommentLayout) : Addressee → List (List Char) → List Char
  | .record, lines => layout.chars (lines.take 1) ++ '\n' :: lineComments (lines.drop 1)
  | .returnValue, lines => layout.chars lines.getLast?.toList ++ ['\n']
  | .declaration, lines => layout.chars (heldLines lines) ++ ['\n']

section

variable {t : State} (hmode : t.mode = .plain) (hstart : t.scope.AtLineStart)

include hmode hstart

theorem State.run_asBlocks_record (haddressee : t.scope.addressee = .record)
    (hlines : IsCommentRun lines) (layout : CommentLayout) :
    t.run (asBlocks layout .record lines) = t.run (lineComments lines) := by
  have hall := hlines.all
  obtain ⟨first, rest, rfl, hne⟩ := hlines.eq_cons
  have hline := hall first (List.mem_cons_self ..)
  have hheld : ∀ line ∈ [first], IsCommentLine line ∧ line ≠ [] := by simpa using ⟨hline, hne⟩
  have htext : (layout.comment [first] hheld).text = String.ofList first := by
    simpa [List.intercalate] using layout.text_comment hheld (by simp)
  have hsplit : asBlocks layout .record (first :: rest) =
      ((layout.comment [first] hheld).chars ++ ['\n']) ++ lineComments rest := by
    simp [asBlocks, CommentLayout.chars, CommentLayout.comment, BlockComment.chars]
  rw [hsplit, run_append, run_commentLine hmode, htext, run_lineComments (by exact hmode)
    fun l hl => hall l (List.mem_cons_of_mem _ hl), run_lineComments hmode hall, update_update]
  exact update_congr (OpenScope.takeLines_record haddressee hstart hne).symm

theorem State.run_asBlocks_returnValue (haddressee : t.scope.addressee = .returnValue)
    (hlines : IsCommentRun lines) (layout : CommentLayout) :
    t.run (asBlocks layout .returnValue lines) = t.run (lineComments lines) := by
  have hall := hlines.all
  obtain ⟨init, last, rfl, hne⟩ := hlines.eq_concat
  have hheld : ∀ line ∈ [last], IsCommentLine line ∧ line ≠ [] := by
    simpa using ⟨hall last (by simp), hne⟩
  have htext : (layout.comment [last] hheld).text = String.ofList last := by
    simpa [List.intercalate] using layout.text_comment hheld (by simp)
  have hblock : asBlocks layout .returnValue (init ++ [last]) =
      (layout.comment [last] hheld).chars ++ ['\n'] := by
    simp [asBlocks, CommentLayout.chars, CommentLayout.comment, BlockComment.chars]
  rw [hblock, run_commentLine hmode, htext, run_lineComments hmode hall]
  refine update_congr ?_
  rw [OpenScope.takeLines_returnValue haddressee hstart.claim hne,
    OpenScope.takeComment_returnValue haddressee hstart.claim (OpenScope.ofList_ne_empty hne)]
  exact OpenScope.nextLine_eq_self ⟨hstart.claim, hstart.joinable⟩

/-- Only whether a further line comment would be joined differs. -/
theorem State.run_asBlocks_declaration (haddressee : t.scope.addressee = .declaration)
    (hlines : IsCommentRun lines) (layout : CommentLayout) :
    ∃ comment, t.run (asBlocks layout .declaration lines) = t.update (·.update ({ · with comment })) ∧
      t.run (lineComments lines) =
        (t.update (·.update ({ · with comment }))).update (·.update ({ · with joinable := true })) := by
  have hheld : ∀ line ∈ heldLines lines, IsCommentLine line ∧ line ≠ [] := fun line hline =>
    ⟨hlines.all line (mem_of_mem_heldLines hline), ne_nil_of_mem_heldLines hline⟩
  have htext := layout.text_comment hheld hlines.heldLines_ne_nil
  have hne := OpenScope.ofList_ne_empty (intercalate_ne_nil hheld hlines.heldLines_ne_nil)
  have hall := hlines.all
  obtain ⟨first, rest, rfl, hline⟩ := hlines.eq_cons
  have hblock : asBlocks layout .declaration (first :: rest) =
      (layout.comment (heldLines (first :: rest)) hheld).chars ++ ['\n'] := by
    simp [asBlocks, CommentLayout.chars, CommentLayout.comment, BlockComment.chars]
  refine ⟨some (String.ofList (['\n'].intercalate (heldLines (first :: rest)))), ?_, ?_⟩
  · rw [hblock, run_commentLine hmode, htext]
    refine update_congr ?_
    rw [OpenScope.takeComment_declaration haddressee hstart.claim hne rfl]
    simp [OpenScope.update, hstart.claim, hstart.joinable]
  · rw [run_lineComments hmode hall, update_update]
    exact update_congr (OpenScope.takeLines_declaration haddressee hstart hline)

end

/-- A run of line comments is read as block comments of its lines: one for the next declaration, one
of the last line for a return value, and one of the first line at the start of a record, after which
the others are read as a run of their own. -/
theorem scan_lineComments {before after : String} (hbefore : EndsLine before.toList)
    {lines : List (List Char)} (hlines : IsCommentRun lines) (layout : CommentLayout) (tree : Node)
    (hafter : ((State.start tree).run before.toList).scope.addressee = .declaration →
      EndsRun after.toList) :
    scanWithEvents (before ++ String.ofList (lineComments lines) ++ after) tree =
      scanWithEvents (before ++ String.ofList (asBlocks layout
        ((State.start tree).run before.toList).scope.addressee lines) ++ after) tree := by
  obtain ⟨hmode, hstart⟩ := hbefore.atLineStart tree
  have hscan : ∀ text : List Char, scanWithEvents (before ++ String.ofList text ++ after) tree =
      let scope := ((((State.start tree).run before.toList).run text).run after.toList).result
      (scope.node, scope.events) := by
    intro text
    simp [scanWithEvents, State.run_append]
  rw [hscan, hscan]
  generalize (State.start tree).run before.toList = t at hmode hstart hafter
  cases haddressee : t.scope.addressee with
  | record => rw [State.run_asBlocks_record hmode hstart haddressee hlines]
  | returnValue => rw [State.run_asBlocks_returnValue hmode hstart haddressee hlines]
  | declaration =>
    obtain ⟨comment, hblock, hline⟩ := State.run_asBlocks_declaration hmode hstart haddressee hlines layout
    have hsame := (hafter haddressee).sameResult (t := t.update (·.update ({ · with comment })))
      hmode hstart.claim haddressee true
    rw [hblock, hline]
    exact congrArg₂ Prod.mk hsame.node hsame.events

/-- Two line comments with an empty one between them, before a member of a record that has a comment
already. -/
theorem scan_lineComments_member :
    let before := "struct s \x7b\n/* s */\n"
    let lines := ["a".toList, [], "b c".toList]
    let after := "int x;\n\x7d;\n"
    EndsLine before.toList ∧ IsCommentRun lines ∧ EndsRun after.toList ∧
      before ++ String.ofList (lineComments lines) ++ after =
        "struct s \x7b\n/* s */\n// a\n// \n// b c\nint x;\n\x7d;\n" ∧
      scanWithEvents (before ++ String.ofList (lineComments lines) ++ after) .empty =
        scanWithEvents "struct s \x7b\n/* s */\n/* a\n * b c */\nint x;\n\x7d;\n" .empty := by
  intro before lines after
  have hbefore : EndsLine before.toList :=
    .inr ⟨before.toList.dropLast, by decide +kernel, by decide +kernel⟩
  have hlines : IsCommentRun lines := by decide +kernel
  have hafter : EndsRun after.toList :=
    Eq.subst (by decide +kernel : 'i' :: "nt x;\n\x7d;\n".toList = after.toList)
      (.code _ (by decide) (by decide))
  have haddressee : ((State.start .empty).run before.toList).scope.addressee = .declaration := by
    decide +kernel
  have hblock : before ++ String.ofList (asBlocks {} .declaration lines) ++ after =
      "struct s \x7b\n/* s */\n/* a\n * b c */\nint x;\n\x7d;\n" := by decide +kernel
  have hscan := scan_lineComments hbefore hlines {} .empty fun _ => hafter
  rw [haddressee, hblock] at hscan
  exact ⟨hbefore, hlines, hafter, by decide +kernel, hscan⟩

/-- At the start of a record a run of line comments is not read as one comment. -/
theorem scan_lineComments_bodyStart :
    let before := "struct s \x7b\n"
    let lines := ["a".toList, "b".toList]
    let after := "int x;\n\x7d;\n"
    EndsLine before.toList ∧ IsCommentRun lines ∧ EndsRun after.toList ∧
      scan (before ++ String.ofList (lineComments lines) ++ after) .empty ≠
        scan (before ++ String.ofList (CommentLayout.chars {} lines) ++ "\n" ++ after) .empty := by
  intro before lines after
  have hbefore : EndsLine before.toList :=
    .inr ⟨before.toList.dropLast, by decide +kernel, by decide +kernel⟩
  have hafter : EndsRun after.toList :=
    Eq.subst (by decide +kernel : 'i' :: "nt x;\n\x7d;\n".toList = after.toList)
      (.code _ (by decide) (by decide))
  refine ⟨hbefore, by decide +kernel, hafter, fun he => ?_⟩
  exact absurd (congrArg (fun tree => tree.children.map (·.descriptionText)) he) (by decide +kernel)

end HeaderDocs.Scan
