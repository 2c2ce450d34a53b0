import HeaderDocs.Proofs.Comment.Prose
import HeaderDocs.Proofs.Reference.PageEntries
import HeaderDocs.Proofs.Scan.BlockComments

/-!
# Comments that are prose

A block comment of words is set out in lines, with decoration at the starts of its lines. What is taken
from it are the words, and they are the description of the function that is declared behind the comment,
unless the first of them is taken for the direction of an argument.

* `ProseComment.text_comment`: a comment of prose holds its text.
* `descriptionText_toNode_prose`: the description of a function with a comment of prose.
* `scan_prose`: the words of comments in a source of prototypes, and where they are shown.
-/
namespace HeaderDocs.Scan

open HeaderDocs.Comment HeaderDocs.Node HeaderDocs.Text

/-! ## Comments of words -/

/-- A word of a comment with what stands before it: a break, and decoration where a line begins. -/
structure LaidWord where
  wordBreak : WordBreak
  margin : List Char := []
  word : ProseWord
  margin_decoration : margin.all (fun c => isDecoration c && c != '\n') = true := by decide
  margin_line : margin = [] ∨ wordBreak.chars.getLast? = some '\n' := by decide

def LaidWord.chars (w : LaidWord) : List Char := w.wordBreak.chars ++ (w.margin ++ w.word.chars)

/-- A comment that is nothing but words, with decoration around them. -/
structure ProseComment where
  opening : List Char := [' ']
  first : ProseWord
  rest : List LaidWord := []
  closing : List Char := [' ']
  stars : Nat := 0
  opening_decoration : opening.all isDecoration = true := by decide
  closing_space : closing.all isSpace = true := by decide

/-! ### Decoration -/

theorem isCommentLine_word (w : ProseWord) : IsCommentLine w.chars := by
  have hne : ∀ {c d : Char}, c ∈ w.chars → isProseChar d = false → c ≠ d := fun hc hd =>
    ne_of_isProseChar (w.isProseChar hc) hd
  refine ⟨⟨fun h => hne h (by decide) rfl, fun h => hne h (by decide) rfl⟩, fun c hc => ?_,
    fun c hc => ?_, contains_eq_false (c := '/') (by decide) fun h => hne h (by decide) rfl⟩
  · have hmem := List.mem_of_mem_head? hc
    exact ⟨not_isSpace_of_isProseChar (w.isProseChar hmem), hne hmem (by decide),
      hne hmem (by decide)⟩
  · have hmem := List.mem_of_mem_getLast? hc
    exact ⟨not_isSpace_of_isProseChar (w.isProseChar hmem), hne hmem (by decide)⟩

theorem undecorate_word (lineStart : Bool) (w : ProseWord) (rest : List Char) :
    undecorate lineStart (w.chars ++ rest) = w.chars ++ undecorate false rest := by
  cases lineStart with
  | true => exact undecorate_line (isCommentLine_word w) w.ne_nil rest
  | false => exact undecorate_inLine (isCommentLine_word w).oneLine.1 rest

namespace LaidWord

variable (w : LaidWord)

theorem isDecoration_margin : ∀ c ∈ w.margin, isDecoration c = true ∧ c ≠ '\n' := by
  simpa using w.margin_decoration

/-- The decoration of a margin is passed over, since it stands at the start of a line. -/
theorem undecorate_chars (rest : List Char) :
    undecorate false (w.chars ++ rest) =
      w.wordBreak.chars ++ (w.word.chars ++ undecorate false rest) := by
  have hmargin : undecorate true (w.margin ++ (w.word.chars ++ rest)) =
      w.word.chars ++ undecorate false rest := by
    have hnone : w.margin.filter (· == '\n') = [] :=
      List.filter_eq_nil_iff.mpr fun c hc => by simpa using (w.isDecoration_margin c hc).2
    rw [undecorate_decoration fun c hc => (w.isDecoration_margin c hc).1, hnone, undecorate_word]
    rfl
  have hchars : w.chars ++ rest = w.wordBreak.chars ++ (w.margin ++ (w.word.chars ++ rest)) := by
    simp [chars]
  rw [hchars]
  cases hbreak : w.wordBreak with
  | space | carriageReturn =>
    have hempty : w.margin = [] := w.margin_line.resolve_right (by rw [hbreak]; decide)
    rw [hempty, List.nil_append, undecorate_inLine (by decide), undecorate_word]
  | lineFeed => exact congrArg ('\n' :: ·) hmargin
  | returnAndFeed => exact congrArg ('\r' :: '\n' :: ·) hmargin

end LaidWord

theorem undecorate_laidWords (words : List LaidWord) (rest : List Char) :
    undecorate false (words.flatMap LaidWord.chars ++ rest) =
      Prose.restText (words.map fun w => (w.wordBreak, w.word)) ++ undecorate false rest := by
  induction words with
  | nil => rfl
  | cons w words ih =>
    rw [List.flatMap_cons, List.append_assoc, w.undecorate_chars, ih]
    simp [Prose.restText]

/-- What is left of white space and stars that stand behind the last word. -/
theorem undecorate_ending (lineStart : Bool) {closing : List Char}
    (h : ∀ c ∈ closing, isSpace c = true) (stars : Nat) :
    ∃ gap kept, (∀ c ∈ gap, isSpace c = true) ∧
      undecorate lineStart (closing ++ List.replicate stars '*') = gap ++ List.replicate kept '*' := by
  induction closing generalizing lineStart with
  | nil =>
    cases lineStart with
    | true =>
      have hstars : ∀ c ∈ List.replicate stars '*', isDecoration c = true := by
        intro c hc
        rw [List.eq_of_mem_replicate hc]
        decide
      refine ⟨[], 0, nofun, ?_⟩
      have hnone := undecorate_decoration hstars []
      simpa [undecorate] using hnone
    | false =>
      refine ⟨[], stars, nofun, ?_⟩
      have hline : '\n' ∉ List.replicate stars '*' := by simp
      simpa [undecorate] using undecorate_inLine hline []
  | cons c closing ih =>
    have hc := h c (List.mem_cons_self ..)
    have hstar : (c == '*') = false := by
      rw [beq_eq_false_iff_ne]
      intro he
      rw [he] at hc
      exact absurd hc (by decide)
    have hrest := fun lineStart => ih lineStart fun d hd => h d (List.mem_cons_of_mem _ hd)
    rw [List.cons_append, undecorate]
    simp only [hstar, Bool.and_false, Bool.false_eq_true, if_false]
    split
    · obtain ⟨gap, kept, hgap, hkept⟩ := hrest true
      exact ⟨'\n' :: gap, kept, List.forall_mem_cons.mpr ⟨rfl, hgap⟩, by rw [hkept]; rfl⟩
    · split
      · exact hrest true
      · obtain ⟨gap, kept, hgap, hkept⟩ := hrest false
        exact ⟨c :: gap, kept, List.forall_mem_cons.mpr ⟨hc, hgap⟩, by rw [hkept]; rfl⟩

namespace ProseComment

/-- The words of a comment, without decoration. -/
def prose (c : ProseComment) : Prose := ⟨c.first, c.rest.map fun w => (w.wordBreak, w.word)⟩

/-- What stands behind the last word. -/
def ending (c : ProseComment) : List Char := c.closing ++ List.replicate c.stars '*'

/-- What stands between the marks of the comment. -/
def body (c : ProseComment) : List Char :=
  c.opening ++ (c.first.chars ++ (c.rest.flatMap LaidWord.chars ++ c.ending))

variable (c : ProseComment)

theorem closes : contains ['*', '/'] c.body = false := by
  have hdecoration : ∀ {cs : List Char}, (∀ d ∈ cs, isDecoration d = true) → '/' ∉ cs :=
    fun h hmem => absurd (h _ hmem) (by decide)
  have hword : ∀ w : ProseWord, '/' ∉ w.chars := fun w h =>
    ne_of_isProseChar (w.isProseChar h) (by decide) rfl
  have hlaid : ∀ w ∈ c.rest, '/' ∉ w.chars := by
    intro w _
    have hbreak : '/' ∉ w.wordBreak.chars := by cases w.wordBreak <;> decide
    have hmargin := hdecoration fun d hd => (w.isDecoration_margin d hd).1
    simp [LaidWord.chars, hbreak, hmargin, hword]
  have hopening := hdecoration (List.all_eq_true.mp c.opening_decoration)
  have hclosing : '/' ∉ c.closing := fun h =>
    absurd (List.all_eq_true.mp c.closing_space _ h) (by decide)
  refine contains_eq_false (c := '/') (by decide) ?_
  simpa [body, ending, hopening, hword, hclosing] using hlaid

def comment : BlockComment := ⟨c.body, c.closes⟩

/-- White space and stars behind a text of prose are taken off. -/
theorem trimEnd_ending (p : Prose) {gap : List Char} (hgap : ∀ c ∈ gap, isSpace c = true)
    (stars : Nat) :
    trimEnd (dropEndWhile (· == '*') (trimEnd (p.text ++ (gap ++ List.replicate stars '*')))) =
      p.text := by
  have hspace : trimEnd (p.text ++ gap) = p.text := by
    rw [trimEnd, dropEndWhile_append hgap]
    exact p.trimEnd_text
  cases stars with
  | zero => rw [List.replicate_zero, List.append_nil, hspace, p.dropEndStars_text, p.trimEnd_text]
  | succ stars =>
    have hlast : trimEnd (p.text ++ (gap ++ List.replicate (stars + 1) '*')) =
        p.text ++ gap ++ List.replicate (stars + 1) '*' := by
      rw [← List.append_assoc, List.replicate_succ', ← List.append_assoc]
      exact (dropEndWhile_concat isSpace _ '*').trans (if_neg (by decide))
    have hstar : '*' ∉ p.text ++ gap := by
      have hgap : '*' ∉ gap := fun h => absurd (hgap _ h) (by decide)
      simp [hgap, p.not_mem_text (c := '*') (by decide) (by decide)]
    have hstars : dropEndWhile (· == '*') (p.text ++ gap) = p.text ++ gap := by
      refine dropEndWhile_eq_self fun c hc => beq_eq_false_iff_ne.mpr fun he => hstar ?_
      exact he ▸ List.mem_of_mem_getLast? hc
    rw [hlast, dropEndWhile_append (by simp), hstars, hspace]

theorem text_comment : c.comment.text = String.ofList c.prose.text := by
  obtain ⟨gap, kept, hgap, hending⟩ :=
    undecorate_ending false (List.all_eq_true.mp c.closing_space) c.stars
  have hbody : undecorate true c.body =
      c.opening.filter (· == '\n') ++ (c.prose.text ++ (gap ++ List.replicate kept '*')) := by
    rw [body, undecorate_decoration (List.all_eq_true.mp c.opening_decoration), undecorate_word,
      undecorate_laidWords, ending, hending, Prose.text]
    simp [prose]
  have hdrop : (undecorate true c.body).dropWhile (· == '\n') =
      c.prose.text ++ (gap ++ List.replicate kept '*') := by
    obtain ⟨d, ds, hfirst, hd⟩ := c.prose.first_text
    have hline : d ≠ '\n' := ne_of_isProseChar hd (by decide)
    rw [hbody, List.dropWhile_append_of_pos fun e he => (List.mem_filter.mp he).2, hfirst,
      List.cons_append, List.dropWhile_cons_of_neg (by simpa using hline)]
  have htext : c.comment.text = String.ofList (trimEnd (dropEndWhile (· == '*')
      (trimEnd ((undecorate true c.body).dropWhile (· == '\n'))))) := rfl
  rw [htext, hdrop, trimEnd_ending c.prose hgap]

end ProseComment

/-! ## Functions with comments that are prose -/

variable {i : Item} {c : ProseComment}

theorem text_normalize_prose (hc : i.comment = some c.comment) :
    (normalize i.raw).text = String.ofList c.prose.described.text := by
  have hraw : i.raw = String.ofList c.prose.text := by
    rw [Item.raw, hc]
    exact c.text_comment
  rw [hraw, c.prose.normalize_text]

theorem descriptionText_toNode_prose (hc : i.comment = some c.comment) :
    i.toNode.descriptionText = String.ofList c.prose.described.text := by
  rw [Item.toNode, Prototype.descriptionText_toNode, text_normalize_prose hc]

theorem lastPublic?_prose (hc : i.comment = some c.comment) : lastPublic? [i] i.name = some i := by
  have hmarker : i.isPrivate = false := by
    rw [Item.isPrivate, text_normalize_prose hc, Comment.isPrivate, String.toList_ofList]
    exact contains_eq_false (c := '@') (by decide) c.prose.described.at_not_mem_text
  simp [lastPublic?, hmarker]

/-- The lines of an entry before the description: an anchor, a heading and a signature. -/
def linesBeforeDescription (style : EntryStyle) (l : Located) : List String :=
  [anchorMark l.anchor, "", heading l.node.entryTitle style.headingLevel, "",
    "\x60\x60\x60" ++ style.language, l.signature, "\x60\x60\x60", ""]

theorem signature_ne_empty {l : Located} (hkind : l.node.kind = .function) : l.signature ≠ "" := by
  have hparen : '(' ∈ l.signature.toList := by
    simp only [Located.signature, hkind, functionSignature, joinDeclared]
    split
    · simp
    · split <;> simp
  intro hempty
  rw [hempty] at hparen
  cases hparen

/-- Prose that describes a function is shown behind its signature. -/
theorem exists_entry_eq_prose (style : EntryStyle) {l : Located} (hkind : l.node.kind = .function)
    {p : Prose} (hdescription : l.node.descriptionText = String.ofList p.text) :
    ∃ tables, l.entry style = "\n".intercalate
      (linesBeforeDescription style l ++ l.node.descriptionText :: "" :: tables) := by
  have hsignature : l.signature.isEmpty = false := by
    simpa using signature_ne_empty hkind
  have htext : (String.ofList p.text).isEmpty = false := by
    obtain ⟨c, cs, hfirst, -⟩ := p.first_text
    simp [hfirst]
  have hannotation : annotationLines (String.ofList p.text) = [] := by
    simp [annotationLines, p.annotation_text]
  have hlines : l.entryLines style = linesBeforeDescription style l ++ l.node.descriptionText :: "" ::
      (l.node.argumentTable ++ l.node.resultLines) := by
    simp [Located.entryLines, hdescription, p.stripMarkup_text, p.splitSummary_text, hannotation,
      hsignature, htext, hkind, linesBeforeDescription, anchorMark]
  have hmembers : (style.members && l.node.kind.listsMembers) = false := by
    rw [hkind]
    exact Bool.and_false _
  refine ⟨l.node.argumentTable ++ l.node.resultLines, ?_⟩
  rw [Located.entry, entry_eq_members, hmembers, if_neg Bool.false_ne_true, List.append_nil, hlines]

/-- The words of a comment of prose are the description of the function behind it, and are shown behind
its signature, but for a first word that directions are marked by. -/
theorem scan_prose {items : List Item} {source : String} (h : SourceText items source.toList)
    (hc : i.comment = some c.comment) (hi : lastPublic? items i.name = some i) (style : EntryStyle) :
    ∃ n ∈ (scan source .empty).children, n.kind = .function ∧ n.name = some i.name ∧
      words n.descriptionText.toList =
        (if c.prose.beginsWithDirection then c.prose.words.tail else c.prose.words) ∧
      ∃ tables, Located.entry style { node := n, above := [scan source .empty] } =
        "\n".intercalate (linesBeforeDescription style { node := n, above := [scan source .empty] } ++
          n.descriptionText :: "" :: tables) := by
  have hdocuments := scan_prototypes h
  have hdescription := descriptionText_toNode_prose hc
  refine ⟨i.toNode, (hdocuments.mem_iff _).mpr ⟨i, hi, rfl⟩, rfl, rfl, ?_, ?_⟩
  · rw [hdescription, String.toList_ofList, Prose.words_text, Prose.words_described]
  · exact exists_entry_eq_prose style rfl hdescription

/-- The prototype of a function without parameters. -/
def plainPrototype : Prototype where
  result := ⟨[.ofText "short" (by decide +kernel)], 0, List.cons_ne_nil _ _⟩
  name := .ofText "area" (by decide +kernel)
  leads := by decide +kernel
  returns := by decide +kernel

theorem sourceText_plainPrototype (c : BlockComment) :
    SourceText [⟨some c, plainPrototype⟩] (c.chars ++ "\nshort area(void);\n".toList) := by
  have hprototype : Spells (plainPrototype.tokens true) _ :=
    .word (by decide : IsGap [' ']) (by simp) <| .opening (by decide : IsGap []) <|
    .word (by decide : IsGap []) (fun _ => ⟨')', rfl⟩) <| .mark (by decide : IsGap []) <|
    .mark (by decide : IsGap []) .nil
  have hsource := SourceText.cons (by decide : IsGap [])
    (Item.Spelled.commented (c := c) (by decide : IsGap ['\n']) hprototype)
    (.nil (by decide : IsGap []))
  have htext : [] ++ (c.chars ++ (['\n'] ++ ("short area(void);".toList ++ ['\n'])) ++ []) =
      c.chars ++ "\nshort area(void);\n".toList := by simp
  exact htext ▸ hsource

/-- Two lines of words with decoration around them. -/
theorem scan_prose_lines :
    let word (text : String) (h : text.toList ≠ [] ∧ text.toList.all isProseChar = true) : ProseWord :=
      ⟨text.toList, h.1, h.2⟩
    let c : ProseComment :=
      { opening := ['*', ' ']
        first := word "Opens" (by decide)
        rest := [{ wordBreak := .space, word := word "it," (by decide) },
          { wordBreak := .lineFeed, margin := [' ', '*', ' '], word := word "I" (by decide) },
          { wordBreak := .space, word := word "mean:" (by decide) },
          { wordBreak := .space, word := word "now." (by decide) }]
        stars := 1 }
    let source := "/** Opens it,\n * I mean: now. **/\nshort area(void);\n"
    SourceText [⟨some c.comment, plainPrototype⟩] source.toList ∧ c.prose.beginsWithDirection = false ∧
      ∃ n ∈ (scan source .empty).children, n.name = some "area" ∧
        words n.descriptionText.toList = ["Opens", "it,", "I", "mean:", "now."].map String.toList ∧
        ∃ tables, Located.entry {} { node := n, above := [scan source .empty] } =
          "\n".intercalate (linesBeforeDescription {} { node := n, above := [scan source .empty] } ++
            n.descriptionText :: "" :: tables) := by
  intro word c source
  have htext : c.comment.chars ++ "\nshort area(void);\n".toList = source.toList := by decide +kernel
  have hsource : SourceText [⟨some c.comment, plainPrototype⟩] source.toList :=
    htext ▸ sourceText_plainPrototype c.comment
  obtain ⟨n, hn, -, hname, hwords, hentry⟩ := scan_prose hsource rfl (lastPublic?_prose rfl) {}
  exact ⟨hsource, by decide +kernel, n, hn, hname, hwords, hentry⟩

/-- The first word of a sentence is taken for the direction of an argument, and is lost. -/
theorem not_scan_prose_direction :
    let source := "/* I am here. */\nint f(void);\n"
    (scan source .empty).children.length = 1 ∧
      ∃ n ∈ (scan source .empty).children, n.kind = .function ∧ n.name = some "f" ∧
        words n.descriptionText.toList = ["am", "here."].map String.toList := by
  decide +kernel

end HeaderDocs.Scan
