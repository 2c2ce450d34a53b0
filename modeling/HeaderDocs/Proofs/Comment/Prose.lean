import HeaderDocs.Proofs.Comment.Marker
import HeaderDocs.Proofs.Scan.Spelling
import HeaderDocs.Proofs.Text.Substitute
import HeaderDocs.Proofs.Text.Words

/-!
# Prose

A comment that is nothing but words, with single spaces or line ends between them, uses no convention and
holds no markup, and is a description as it stands. But the conventions are looked for by their first
characters only: where the first word is one of `I`, `O` and `IO` and a space follows, it is taken for a
direction, although no dash stands behind it, and does not come into the description.

* `Prose.words_text`: the words of a text of prose.
* `Prose.normalize_text`: what is left of prose when its conventions have been read.
* `Prose.stripMarkup_text`, `Prose.splitSummary_text`: prose is shown as it stands.
-/
namespace HeaderDocs

namespace Comment

open HeaderDocs.Scan HeaderDocs.Text

/-- A character of a word of prose: a letter, a digit, or a mark that ends a sentence or a part of one. -/
def isProseChar (c : Char) : Bool := isAlphanumeric c || ['.', ',', ';', ':'].contains c

structure ProseWord where
  chars : List Char
  ne_nil : chars ≠ []
  all : chars.all isProseChar = true

/-- What stands between two words: a space, or the end of a line in any tradition. -/
inductive WordBreak where
  | space
  | lineFeed
  | carriageReturn
  | returnAndFeed
deriving DecidableEq, Repr

def WordBreak.chars : WordBreak → List Char
  | .space => [' ']
  | .lineFeed => ['\n']
  | .carriageReturn => ['\r']
  | .returnAndFeed => ['\r', '\n']

/-- A text of words: the first one, and the others with what stands before each of them. -/
structure Prose where
  first : ProseWord
  rest : List (WordBreak × ProseWord)

namespace Prose

/-- The text behind the first word. -/
def restText (rest : List (WordBreak × ProseWord)) : List Char :=
  rest.flatMap fun (wordBreak, word) => wordBreak.chars ++ word.chars

def text (p : Prose) : List Char := p.first.chars ++ restText p.rest

def words (p : Prose) : List (List Char) := p.first.chars :: p.rest.map fun (_, word) => word.chars

/-- The words that directions are marked by. -/
def directionWords : List (List Char) := [['I'], ['O'], ['I', 'O']]

/-- Whether the text begins as one with a direction does: with the word for it and a space. -/
def beginsWithDirection (p : Prose) : Bool :=
  directionWords.contains p.first.chars && p.rest.head?.any (·.1 == .space)

/-- What comes into a description: everything behind a direction. -/
def described : Prose → Prose
  | ⟨first, (.space, next) :: rest⟩ =>
    if directionWords.contains first.chars then ⟨next, rest⟩ else ⟨first, (.space, next) :: rest⟩
  | p => p

theorem words_described (p : Prose) :
    p.described.words = if p.beginsWithDirection then p.words.tail else p.words := by
  obtain ⟨first, rest⟩ := p
  cases rest with
  | nil => simp [described, beginsWithDirection]
  | cons next rest =>
    obtain ⟨wordBreak, next⟩ := next
    cases wordBreak <;> simp [described, beginsWithDirection]
    split <;> simp_all [words]

end Prose

/-! ## Characters -/

theorem not_isSpace_of_isProseChar {c : Char} (h : isProseChar c = true) : isSpace c = false := by
  unfold isProseChar at h
  rw [Bool.or_eq_true] at h
  rcases h with h | h
  · exact not_isSpace_of_isWordChar (by rw [isWordChar, h, Bool.true_or])
  · simp at h
    rcases h with rfl | rfl | rfl | rfl <;> decide

theorem ne_of_isProseChar {c d : Char} (h : isProseChar c = true) (hd : isProseChar d = false) :
    c ≠ d := by
  intro he
  rw [he, hd] at h
  exact Bool.false_ne_true h

namespace ProseWord

variable (w : ProseWord)

theorem isProseChar {c : Char} (h : c ∈ w.chars) : isProseChar c = true := List.all_eq_true.mp w.all c h

theorem ends : (∃ c cs, w.chars = c :: cs ∧ Comment.isProseChar c = true) ∧
    ∃ cs c, w.chars = cs ++ [c] ∧ Comment.isProseChar c = true := by
  obtain ⟨c, cs, hfirst⟩ := List.exists_cons_of_ne_nil w.ne_nil
  obtain ⟨init, d, hlast⟩ := (List.eq_nil_or_concat' w.chars).resolve_left w.ne_nil
  exact ⟨⟨c, cs, hfirst, w.isProseChar (by simp [hfirst])⟩,
    ⟨init, d, hlast, w.isProseChar (by simp [hlast])⟩⟩

end ProseWord

theorem WordBreak.isSpace_chars (b : WordBreak) : ∀ c ∈ b.chars, isSpace c = true := by
  refine List.all_eq_true.mp ?_
  cases b <;> rfl

namespace Prose

variable (p : Prose)

theorem char_text {c : Char} (h : c ∈ p.text) :
    isProseChar c = true ∨ ∃ b : WordBreak, c ∈ b.chars := by
  simp only [text, restText, List.mem_append, List.mem_flatMap] at h
  rcases h with h | ⟨⟨b, word⟩, -, h | h⟩
  · exact .inl (p.first.isProseChar h)
  · exact .inr ⟨b, h⟩
  · exact .inl (word.isProseChar h)

/-- No character of a convention or of markup occurs in prose. -/
theorem not_mem_text {c : Char} (h : isProseChar c = false) (hspace : isSpace c = false) :
    c ∉ p.text := by
  intro hc
  rcases p.char_text hc with hword | ⟨b, hb⟩
  · rw [h] at hword
    exact Bool.false_ne_true hword
  · have := b.isSpace_chars c hb
    rw [hspace] at this
    exact Bool.false_ne_true this

theorem last_text : ∃ cs c, p.text = cs ++ [c] ∧ isProseChar c = true := by
  obtain ⟨first, rest⟩ := p
  rcases List.eq_nil_or_concat' rest with rfl | ⟨init, ⟨b, word⟩, rfl⟩
  · obtain ⟨cs, c, hchars, hc⟩ := first.ends.2
    exact ⟨cs, c, by simp [text, restText, hchars], hc⟩
  · obtain ⟨cs, c, hchars, hc⟩ := word.ends.2
    exact ⟨first.chars ++ (restText init ++ (b.chars ++ cs)), c, by simp [text, restText, hchars], hc⟩

theorem first_text : ∃ c cs, p.text = c :: cs ∧ isProseChar c = true := by
  obtain ⟨c, cs, hchars, hc⟩ := p.first.ends.1
  exact ⟨c, cs ++ restText p.rest, by simp [text, hchars], hc⟩

theorem text_cons (first : ProseWord) (b : WordBreak) (next : ProseWord)
    (rest : List (WordBreak × ProseWord)) :
    text ⟨first, (b, next) :: rest⟩ = first.chars ++ (b.chars ++ text ⟨next, rest⟩) := by
  simp [text, restText]

/-! ## Words -/

theorem words_word (w : ProseWord) : Text.words w.chars = [w.chars] := by
  have hnone : ∀ c ∈ w.chars, isSpace c = false := fun c hc =>
    not_isSpace_of_isProseChar (w.isProseChar hc)
  simp [Text.words, splitWhere_of_none hnone, w.ne_nil]

theorem words_break (cs : List Char) (b : WordBreak) (rest : List Char) :
    Text.words (cs ++ (b.chars ++ rest)) = Text.words cs ++ Text.words rest := by
  cases b with
  | returnAndFeed => exact (words_append rfl cs _).trans (congrArg (_ ++ ·) (words_cons rfl rest))
  | _ => exact words_append rfl cs rest

theorem words_text : Text.words p.text = p.words := by
  obtain ⟨first, rest⟩ := p
  induction rest generalizing first with
  | nil => simp [text, restText, words, words_word]
  | cons next rest ih =>
    rw [text_cons, words_break, words_word, ih]
    rfl

/-! ## Conventions -/

theorem trimStart_text : trimStart p.text = p.text := by
  obtain ⟨c, cs, hfirst, hc⟩ := p.first_text
  rw [hfirst, trimStart_eq_self (not_isSpace_of_isProseChar hc)]

theorem trimEnd_text : trimEnd p.text = p.text := by
  obtain ⟨cs, c, hlast, hc⟩ := p.last_text
  refine dropEndWhile_eq_self ?_
  simpa [hlast] using not_isSpace_of_isProseChar hc

theorem dropEndStars_text : dropEndWhile (· == '*') p.text = p.text := by
  obtain ⟨cs, c, hlast, hc⟩ := p.last_text
  refine dropEndWhile_eq_self ?_
  simpa [hlast] using ne_of_isProseChar hc (by decide)

theorem trim_text : trim p.text = p.text := by rw [trim, trimStart_text, trimEnd_text]

theorem trimStars_text : trimStars p.text = p.text := by
  obtain ⟨c, cs, hfirst, hc⟩ := p.first_text
  have hstars : p.text.dropWhile (· == '*') = p.text := by
    rw [hfirst, List.dropWhile_cons_of_neg (by simpa using ne_of_isProseChar hc (by decide))]
  rw [trimStars, hstars, trimStart_text, dropEndStars_text, trimEnd_text]

/-- A text without backslashes has no escaped slash. -/
theorem replace_escaped {cs : List Char} (h : '\\' ∉ cs) : replace ['\\', '/'] ['/'] cs = cs := by
  have hnone : ∀ before c cs, c ≠ '\\' → unescape before (c :: cs) = none := fun _ c _ hc => by
    simp [unescape, Ne.symm hc]
  have hpass := substituteFrom_pass hnone (fun c hc he => h (he ▸ hc)) none []
  have hkept : substituteFrom unescape none 0 cs = cs := by simpa [substituteFrom] using hpass
  exact hkept

theorem afterQuotedName?_text : afterQuotedName? p.text = none := by
  obtain ⟨c, cs, hfirst, hc⟩ := p.first_text
  rw [hfirst]
  unfold afterQuotedName?
  split
  · rename_i he
    exact absurd (List.cons.inj he).1 (ne_of_isProseChar hc (by decide))
  · rfl

theorem skipDash_text : skipDash p.text = p.text := by
  obtain ⟨c, cs, hfirst, hc⟩ := p.first_text
  rw [hfirst, skipDash, trimStart_eq_self (not_isSpace_of_isProseChar hc)]
  split
  · rename_i he
    exact absurd (List.cons.inj he).1 (ne_of_isProseChar hc (by decide))
  · rfl

theorem direction?_eq_some {cs after : List Char} {direction : String}
    (h : direction? cs = some (direction, after)) :
    ∃ word ∈ directionWords, ∃ rest, cs = word ++ ' ' :: rest := by
  unfold direction? at h
  split at h
  · exact ⟨['I'], by decide, _, rfl⟩
  · exact ⟨['O'], by decide, _, rfl⟩
  · exact ⟨['I', 'O'], by decide, _, rfl⟩
  · cases h

theorem direction?_append {word : List Char} (h : word ∈ directionWords) (rest : List Char) :
    (direction? (word ++ ' ' :: rest)).map (·.2) = some (skipDash rest) := by
  simp only [directionWords, List.mem_cons, List.not_mem_nil, or_false] at h
  rcases h with rfl | rfl | rfl <;> rfl

/-- The first word of prose, and the space behind it. -/
theorem eq_of_text {word rest : List Char} (hword : ∀ c ∈ word, isSpace c = false)
    (h : p.text = word ++ ' ' :: rest) :
    p.first.chars = word ∧
      ∃ next more, p.rest = (.space, next) :: more ∧ rest = text ⟨next, more⟩ := by
  obtain ⟨first, others⟩ := p
  have hfirst : ∀ c ∈ first.chars, isSpace c = false := fun c hc =>
    not_isSpace_of_isProseChar (first.isProseChar hc)
  cases others with
  | nil =>
    have hspace : ' ' ∈ first.chars := by
      have hmem : ' ' ∈ word ++ ' ' :: rest := by simp
      rw [← h] at hmem
      simpa [text, restText] using hmem
    exact absurd (hfirst _ hspace) (by decide)
  | cons next more =>
    obtain ⟨b, next⟩ := next
    rw [text_cons] at h
    have hbefore : ∀ (cs : List Char) (d : Char) (ds : List Char), (∀ c ∈ cs, isSpace c = false) →
        isSpace d = true → (cs ++ d :: ds).takeWhile (fun c => !isSpace c) = cs :=
      fun cs d ds hcs hd => takeWhile_append_cons (by simpa using hcs) (by simpa using hd) ds
    have hchars : first.chars = word := by
      have hcut := congrArg (List.takeWhile fun c => !isSpace c) h
      rw [hbefore word _ _ hword rfl] at hcut
      cases b <;> exact (hbefore first.chars _ _ hfirst rfl).symm.trans hcut
    rw [hchars] at h
    have hrest := List.append_cancel_left h
    cases b
    · exact ⟨hchars, next, more, rfl, (List.cons.inj hrest).2.symm⟩
    all_goals exact absurd (List.cons.inj hrest).1 (by decide)

/-- A direction is taken off with the space behind it; other first words stay. -/
theorem direction?_text : (direction? p.text).map (·.2) =
    if p.beginsWithDirection then some p.described.text else none := by
  by_cases hbegins : p.beginsWithDirection = true
  · rw [if_pos hbegins]
    obtain ⟨first, rest⟩ := p
    simp only [beginsWithDirection, Bool.and_eq_true, List.contains_iff_mem, Option.any_eq_true,
      beq_iff_eq] at hbegins
    obtain ⟨hword, next, hnext, hspace⟩ := hbegins
    obtain ⟨rest, rfl⟩ := List.head?_eq_some_iff.mp hnext
    obtain ⟨b, next⟩ := next
    cases hspace
    rw [text_cons]
    have hdescribed : described ⟨first, (.space, next) :: rest⟩ = ⟨next, rest⟩ :=
      if_pos (List.contains_iff_mem.mpr hword)
    rw [hdescribed]
    exact (direction?_append hword _).trans (congrArg some (skipDash_text _))
  · rw [if_neg hbegins, Option.map_eq_none_iff]
    cases hdirection : direction? p.text with
    | none => rfl
    | some marked =>
      obtain ⟨word, hword, rest, htext⟩ := direction?_eq_some hdirection
      have hall : ∀ word ∈ directionWords, word.all (isSpace · == false) = true := by decide
      have hspace : ∀ word ∈ directionWords, ∀ c ∈ word, isSpace c = false := fun word hword c hc =>
        eq_of_beq (List.all_eq_true.mp (hall word hword) c hc)
      obtain ⟨hfirst, next, more, hrest, -⟩ := p.eq_of_text (hspace word hword) htext
      refine absurd ?_ hbegins
      simp [beginsWithDirection, hfirst, hrest, hword]

theorem described_of_not {p : Prose} (h : p.beginsWithDirection = false) : p.described = p := by
  obtain ⟨first, rest⟩ := p
  unfold described
  split
  · rename_i hrest
    cases hrest
    rw [if_neg]
    simpa [beginsWithDirection] using h
  · rfl

/-- What is left of prose when its conventions have been read. -/
theorem normalize_text : (normalize (String.ofList p.text)).text = String.ofList p.described.text := by
  have hslash : '\\' ∉ p.text := p.not_mem_text (by decide) (by decide)
  have hdirection := p.direction?_text
  unfold normalize
  simp only [String.toList_ofList, replace_escaped hslash, afterQuotedName?_text]
  cases hmarked : direction? p.text with
  | none =>
    rw [hmarked] at hdirection
    cases hbegins : p.beginsWithDirection with
    | true => simp [hbegins] at hdirection
    | false => rw [described_of_not hbegins, trimStars_text]
  | some marked =>
    rw [hmarked] at hdirection
    cases hbegins : p.beginsWithDirection with
    | false => simp [hbegins] at hdirection
    | true =>
      simp only [hbegins, Option.map_some, if_true, Option.some.injEq] at hdirection
      simp only [hdirection, trimStars_text]

/-! ## Markup -/

theorem at_not_mem_text : '@' ∉ p.text := p.not_mem_text (by decide) (by decide)

theorem annotation_text : annotation (String.ofList p.text) = "" := by
  have hnone : ∀ cs : List Char, '@' ∉ cs → annotationFrom cs = "" := by
    intro cs hcs
    induction cs with
    | nil => rfl
    | cons c cs ih =>
      simp only [List.mem_cons, not_or] at hcs
      have hfirst : annotation? (c :: cs) = none := by simp [annotation?, List.isPrefixOf?, hcs.1]
      rw [annotationFrom, hfirst, Option.getD_none, ih hcs.2]
  rw [ annotation, String.toList_ofList]
  exact hnone _ p.at_not_mem_text

/-- A rule for markup changes no text without at signs. -/
theorem substitute_of_at_not_mem {rule : Rule}
    (hrule : ∀ before c cs, c ≠ '@' → rule before (c :: cs) = none) {cs : List Char}
    (h : '@' ∉ cs) : substitute rule cs = cs := by
  have hpass := substituteFrom_pass hrule (fun c hc he => h (he ▸ hc)) none []
  simpa [substitute, substituteFrom] using hpass

theorem stripMarkup_text : stripMarkup (String.ofList p.text) = String.ofList p.text := by
  have hannotation : substitute annotationRule p.text = p.text :=
    substitute_of_at_not_mem (fun _ c cs hc => by
      simp [annotationRule, List.isPrefixOf?, Ne.symm hc]) p.at_not_mem_text
  have hcode : substitute (codeRule "@code") p.text = p.text :=
    substitute_of_at_not_mem (fun _ c cs hc => by
      simp [codeRule, List.isPrefixOf?, Ne.symm hc]) p.at_not_mem_text
  have hlink : substitute (codeRule "@link") p.text = p.text :=
    substitute_of_at_not_mem (fun _ c cs hc => by
      simp [codeRule, List.isPrefixOf?, Ne.symm hc]) p.at_not_mem_text
  simp only [stripMarkup, String.toList_ofList, hannotation, hcode, hlink, trim_text]

theorem blankLine_cons {c : Char} {cs : List Char} (h : c = '\n' → cs.head? ≠ some '\n')
    (hcs : ¬ ['\n', '\n'] <:+: cs) : ¬ ['\n', '\n'] <:+: c :: cs := by
  rw [List.infix_cons_iff]
  intro hblank
  rcases hblank with ⟨rest, hrest⟩ | hblank
  · obtain ⟨rfl, rfl⟩ := List.cons.inj hrest
    exact h rfl rfl
  · exact hcs hblank

theorem blankLine_word (w : ProseWord) {cs : List Char} (hcs : ¬ ['\n', '\n'] <:+: cs) :
    ¬ ['\n', '\n'] <:+: w.chars ++ cs := by
  have hline : '\n' ∉ w.chars := fun h => ne_of_isProseChar (w.isProseChar h) (by decide) rfl
  generalize w.chars = chars at hline
  induction chars with
  | nil => exact hcs
  | cons c chars ih =>
    rw [List.mem_cons, not_or] at hline
    exact blankLine_cons (fun hc => absurd hc.symm hline.1) (ih hline.2)

theorem blankLine_text : ¬ ['\n', '\n'] <:+: p.text := by
  obtain ⟨first, rest⟩ := p
  induction rest generalizing first with
  | nil => simpa [text, restText] using blankLine_word first (by decide : ¬ ['\n', '\n'] <:+: [])
  | cons next rest ih =>
    obtain ⟨b, next⟩ := next
    rw [text_cons]
    refine blankLine_word first ?_
    have hnext := ih next
    have hhead : (text ⟨next, rest⟩).head? ≠ some '\n' := by
      obtain ⟨c, cs, hfirst, hc⟩ := first_text ⟨next, rest⟩
      simpa [hfirst] using ne_of_isProseChar hc (by decide)
    cases b with
    | returnAndFeed =>
      exact blankLine_cons (fun h => absurd h (by decide)) (blankLine_cons (fun _ => hhead) hnext)
    | _ => exact blankLine_cons (fun _ => hhead) hnext

theorem splitSummary_text : splitSummary (String.ofList p.text) = (String.ofList p.text, "") := by
  have hnone : breakOn? ['\n', '\n'] p.text = none := by
    have hblank := contains_iff_isInfix.not.mpr p.blankLine_text
    simpa [contains] using hblank
  simp only [splitSummary, String.toList_ofList, hnone, stripped, onChars, trim_text]

end Prose

end Comment

end HeaderDocs
