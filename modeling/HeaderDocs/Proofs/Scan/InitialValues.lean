import HeaderDocs.Proofs.Scan.DeclaratorEnds
import HeaderDocs.Proofs.Scan.Literals

/-!
# Initial values

Behind its equals sign a variable is given a value, whose words, marks and literals are collected in
the run. What is none of these is passed over: white space, and every mark that the scanner has no
use for.

* `ValueReader.parts`, `ValueReader.kept`: the fragments that a value leaves, and its characters
  without those that are passed over.
* `ValueReader.flatMap_parts`: the fragments hold the characters that are kept.
* `State.run_value`: reading a value, up to what ends it.
-/
namespace HeaderDocs.Scan

open HeaderDocs.Text

/-! ## What a value is made of -/

/-- The marks that are collected wherever they stand. A slash is one as well, unless it opens a
comment. -/
def valueMarks : List Char := ['(', ')', ',', '=', '*', '+', '-', '&', ':']

structure ValueReader where
  layer : Layer := .code
  /-- The word or the literal that is being read, backwards. -/
  text : List Char := []
  parens : Nat := 0
deriving DecidableEq, Repr

namespace ValueReader

variable (r : ValueReader)

def inWord : Bool := r.layer == .code && !r.text.isEmpty

/-- Whether a character goes on with the word being read. -/
def continues (c : Char) : Bool := r.inWord && State.isWordPart r.parens c

/-- Whether a character may come next: in code no brace, semicolon, directive or comment, and outside
of parentheses no comma. -/
def allows (c : Char) : Bool :=
  r.layer.isLiteral ||
    r.layer.isCode c && !(['\x7b', '\x7d', ';', '#'].contains c) &&
      (r.parens != 0 || !([')', ','].contains c))

def next (c : Char) : ValueReader :=
  let layer := r.layer.next c
  if r.layer.isLiteral then { r with layer, text := if layer.isLiteral then c :: r.text else [] }
  else if r.continues c then { r with text := c :: r.text }
  else
    { layer
      text := if layer.isLiteral || State.isWordStart c then [c] else []
      parens := if c == '(' then r.parens + 1 else if c == ')' then r.parens - 1 else r.parens }

/-- The word before a character that ends it, or the slash. -/
def ended : List String :=
  if r.layer == .slash then ["/"] else if r.inWord then [String.ofList r.text.reverse] else []

/-- The fragments that are complete when a character has been read. -/
def completed (c : Char) : List String :=
  if r.layer.isLiteral then
    if (r.layer.next c).isLiteral then [] else [String.ofList (c :: r.text).reverse]
  else if r.continues c then []
  else r.ended ++ if valueMarks.contains c then [c.toString] else []

def parts (r : ValueReader) : List Char → List String
  | [] => r.ended
  | c :: cs => r.completed c ++ (r.next c).parts cs

def passes (c : Char) : Bool :=
  !(r.layer.isLiteral || r.continues c || State.isWordStart c ||
    ('/' :: '"' :: '\'' :: valueMarks).contains c)

/-- The characters of a value without those that are passed over. -/
def kept (r : ValueReader) : List Char → List Char
  | [] => []
  | c :: cs => if r.passes c then (r.next c).kept cs else c :: (r.next c).kept cs

/-- Whether a text can go on as a value that ends with it. -/
def isValue (r : ValueReader) : List Char → Bool
  | [] => r.parens == 0 && (r.layer == .code || r.layer == .slash)
  | c :: cs => r.allows c && (r.next c).isValue cs

def endsInWord (cs : List Char) : Bool := (cs.foldl next r).inWord

end ValueReader

/-- Whether a text is an initial value: its parentheses are balanced, its literals complete, and it
has no braces, semicolons, comments and directives, and no comma outside of parentheses. -/
def isInitialValue (cs : List Char) : Bool := ValueReader.isValue {} cs

example : isInitialValue "f(x, \"a;\") | ~y[2] / 3".toList = true ∧
    ValueReader.parts {} "f(x, \"a;\") | ~y[2] / 3".toList =
      ["f", "(", "x", ",", "\"a;\"", ")", "~y[2]", "/", "3"] := by decide +kernel

namespace ValueReader

variable {r : ValueReader}

/-! ## What is kept -/

/-- What has been read of the word, the literal or the slash that goes on. -/
def pending (r : ValueReader) : List Char := if r.layer == .slash then ['/'] else r.text.reverse

/-- What is begun by a character of the code that does not go on with a word. -/
inductive Begins (parens : Nat) (c : Char) : ValueReader → Prop
  | mark : c ∈ valueMarks → Begins parens c
      { parens := if c == '(' then parens + 1 else if c == ')' then parens - 1 else parens }
  | slash : c = '/' → Begins parens c { layer := .slash, parens }
  | literal : c = '"' ∨ c = '\'' → Begins parens c { layer := .literal c, text := [c], parens }
  | word : State.isWordStart c = true → Begins parens c { text := [c], parens }
  | nothing : c ∉ '/' :: '"' :: '\'' :: valueMarks → State.isWordStart c = false →
      Begins parens c { parens }

theorem continues_of_text (hr : r.text = []) (c : Char) : r.continues c = false := by
  simp [continues, inWord, hr]

theorem notMem_of_isWordStart {c : Char} (hc : State.isWordStart c = true) :
    c ∉ '/' :: '"' :: '\'' :: valueMarks :=
  notMem_of_class (p := State.isWordStart) (by decide) hc

theorem begins (parens : Nat) {c : Char} (hc : c ≠ '#') :
    Begins parens c (({ parens } : ValueReader).next c) := by
  have hcode : c ∉ ['/', '#', '"', '\''] → Layer.afterCode c = .code := fun h => by
    simp only [List.mem_cons, List.not_mem_nil, or_false, not_or] at h
    simp [Layer.afterCode, h]
  have hnext : ({ parens } : ValueReader).next c =
      { layer := Layer.afterCode c
        text := if (Layer.afterCode c).isLiteral || State.isWordStart c then [c] else []
        parens := if c == '(' then parens + 1 else if c == ')' then parens - 1 else parens } := by
    unfold next
    rw [continues_of_text rfl]
    rfl
  have hparens : c ∉ ['(', ')'] →
      (if c == '(' then parens + 1 else if c == ')' then parens - 1 else parens) = parens := fun h => by
    simp only [List.mem_cons, List.not_mem_nil, or_false, not_or] at h
    simp [h]
  rw [hnext]
  by_cases hmark : c ∈ valueMarks
  · have hplain : c ∉ ['/', '#', '"', '\''] :=
      notMem_of_class (p := valueMarks.contains) (by decide) (by simpa using hmark)
    have hstart : State.isWordStart c = false :=
      Bool.eq_false_iff.mpr fun h => notMem_of_isWordStart h (by simp [hmark])
    rw [hcode hplain, hstart]
    exact .mark hmark
  · have hnone : c ∉ ['(', ')'] := fun h => hmark (List.mem_append_left [',', '=', '*', '+', '-', '&', ':'] h)
    rw [hparens hnone]
    by_cases hslash : c = '/'
    · subst hslash
      exact .slash rfl
    · by_cases hquote : c = '"' ∨ c = '\''
      · have hliteral : Layer.afterCode c = .literal c := by
          rcases hquote with rfl | rfl <;> rfl
        rw [hliteral]
        exact .literal hquote
      · simp only [not_or] at hquote
        rw [hcode (by simp [hslash, hc, hquote])]
        cases hword : State.isWordStart c with
        | true => exact .word hword
        | false => exact .nothing (by simp [hslash, hquote, hmark]) hword

theorem next_code {c : Char} (hliteral : r.layer.isLiteral = false) (hcode : r.layer.isCode c = true)
    (hcontinues : r.continues c = false) :
    r.next c = ({ parens := r.parens } : ValueReader).next c := by
  have hlayer : r.layer.next c = Layer.afterCode c := by
    cases hr : r.layer with
    | code => rfl
    | slash =>
      simp only [hr, Layer.isCode, Bool.and_eq_true, bne_iff_ne] at hcode
      simp [Layer.next, hcode]
    | _ => simp [hr, Layer.isCode] at hcode
  unfold next
  rw [hliteral, hcontinues, hlayer]
  rfl

/-- What may come next is code or in a literal. -/
theorem allows_cases {c : Char} (h : r.allows c = true) :
    r.layer.isLiteral = true ∨ r.layer.isLiteral = false ∧ r.layer.isCode c = true ∧ c ≠ '#' ∧
      c ∉ ['\x7b', '\x7d', ';'] ∧ (c = ')' ∨ c = ',' → r.parens ≠ 0) := by
  cases hliteral : r.layer.isLiteral with
  | true => exact .inl rfl
  | false =>
    refine .inr ⟨rfl, ?_⟩
    simp only [allows, hliteral, Bool.false_or, Bool.and_eq_true, Bool.or_eq_true,
      Bool.not_eq_true', List.contains_eq_mem, decide_eq_false_iff_not, List.mem_cons,
      List.not_mem_nil, or_false, not_or, bne_iff_ne] at h
    obtain ⟨⟨hcode, hopen, hclose, hsemicolon, hdirective⟩, hparens⟩ := h
    exact ⟨hcode, hdirective, by simp [hopen, hclose, hsemicolon],
      fun hc => hparens.resolve_right fun hn => hc.elim hn.1 hn.2⟩

/-- What is read of a fragment that goes on, and what is complete, are the characters that are
kept. -/
theorem flatMap_completed {c : Char} (h : r.allows c = true) :
    (r.completed c).flatMap String.toList ++ (r.next c).pending =
      r.pending ++ if r.passes c then [] else [c] := by
  obtain hliteral | ⟨hliteral, hcode, hdirective, -, -⟩ := allows_cases h
  · have hpasses : r.passes c = false := by simp [passes, hliteral]
    have hslash : (r.layer == .slash) = false := by
      cases hr : r.layer <;> simp_all [Layer.isLiteral]
    rw [hpasses]
    unfold completed next pending
    simp only [hliteral, hslash, if_true, Bool.false_eq_true, if_false]
    cases hnext : (r.layer.next c).isLiteral with
    | true =>
      have hslash' : (r.layer.next c == .slash) = false := by
        cases hr : r.layer.next c <;> simp_all [Layer.isLiteral]
      simp [hslash']
    | false =>
      have hslash' : (r.layer.next c == .slash) = false := by
        cases hr : r.layer with
        | literal q =>
          simp only [Layer.next]
          split
          · rfl
          · split <;> rfl
        | literalEscape q => rfl
        | _ => simp [hr, Layer.isLiteral] at hliteral
      simp [hslash']
  · cases hcontinues : r.continues c with
    | true =>
      have hlayer : r.layer = .code := by
        simp only [continues, inWord, Bool.and_eq_true, beq_iff_eq] at hcontinues
        exact hcontinues.1.1
      simp [completed, next, pending, passes, hcontinues, hlayer, Layer.isLiteral]
    | false =>
      have hended : r.ended.flatMap String.toList = r.pending := by
        unfold ended pending
        cases hr : r.layer with
        | code => cases htext : r.text <;> simp [inWord, hr, htext]
        | slash => simp
        | _ => simp [hr, Layer.isCode] at hcode
      have hcompleted : r.completed c =
          r.ended ++ if valueMarks.contains c then [c.toString] else [] := by
        simp [completed, hliteral, hcontinues]
      have hpasses : r.passes c = !(State.isWordStart c ||
          ('/' :: '"' :: '\'' :: valueMarks).contains c) := by
        simp [passes, hliteral, hcontinues]
      rw [hcompleted, List.flatMap_append, hended, hpasses, List.append_assoc,
        next_code hliteral hcode hcontinues]
      congr 1
      have hbegins := begins r.parens hdirective
      generalize ({ parens := r.parens } : ValueReader).next c = r' at hbegins
      cases hbegins with
      | mark hmark => simp [hmark, pending]
      | slash hc => subst hc; rfl
      | literal hc => rcases hc with rfl | rfl <;> rfl
      | word hword =>
        have hnot := notMem_of_isWordStart hword
        simp only [List.mem_cons, not_or] at hnot
        simp [hnot, hword, pending]
      | nothing hother hword =>
        simp only [List.mem_cons, not_or] at hother
        simp [hother, hword, pending]

/-- The fragments of a value hold the characters that are kept. -/
theorem flatMap_parts {cs : List Char} (h : r.isValue cs = true) :
    (r.parts cs).flatMap String.toList = r.pending ++ r.kept cs := by
  induction cs generalizing r with
  | nil =>
    simp only [isValue, Bool.and_eq_true, Bool.or_eq_true, beq_iff_eq] at h
    rw [parts, kept, List.append_nil]
    unfold ended pending
    rcases h.2 with hlayer | hlayer
    · cases htext : r.text <;> simp [inWord, hlayer, htext]
    · simp [hlayer]
  | cons c cs ih =>
    rw [isValue, Bool.and_eq_true] at h
    rw [parts, kept, List.flatMap_append, ih h.2, ← List.append_assoc, flatMap_completed h.1,
      List.append_assoc]
    cases r.passes c <;> rfl

theorem foldl_next {cs : List Char} (h : r.isValue cs = true) :
    (cs.foldl next r).parens = 0 ∧
      ((cs.foldl next r).layer = .code ∨ (cs.foldl next r).layer = .slash) := by
  induction cs generalizing r with
  | nil => simpa [isValue] using h
  | cons c cs ih =>
    rw [isValue, Bool.and_eq_true] at h
    exact ih h.2

end ValueReader

/-! ## Reading a value -/

namespace ValueReader

def mode (r : ValueReader) : Mode :=
  match r.layer with
  | .slash => .slash
  | .literal quote => .literal quote r.text
  | .literalEscape quote => .literalEscape quote r.text
  | _ => if r.text.isEmpty then .plain else .word r.text

end ValueReader

namespace State

variable {t : State} {c : Context} {r : ValueReader} {run : Run}

def inValue (t : State) (c : Context) (r : ValueReader) (run : Run) (claim : Option (List Claim)) :
    State :=
  (t.inContext { c with run, parens := r.parens, claim }).enter r.mode

theorem step_valueMark (hc : c.Declares) (hrun : c.run ≠ []) (hbase : c.base = []) {m : Char}
    (hm : m ∈ valueMarks) (hparens : m = ')' ∨ m = ',' → c.parens ≠ 0) :
    ∃ spaced, (t.inContext c).step m = t.inContext
      { c with
        run := c.run ++ [⟨m.toString, spaced⟩]
        parens := if m == '(' then c.parens + 1 else if m == ')' then c.parens - 1 else c.parens } := by
  have hstart : c.startRun = c := Context.startRun_of_base hbase
  have hne : c.startRun.run ≠ [] := by rwa [hstart]
  have hpush : ∀ mark : String, ∃ spaced,
      c.pushMark mark = { c with run := c.run ++ [⟨mark, spaced⟩] } := fun mark => by
    rw [Context.pushMark_of_startRun hne, hstart]
    exact ⟨_, rfl⟩
  have hclose : ∀ text : String,
      c.pushIfStarted text true = { c with run := c.run ++ [⟨text, true⟩] } :=
    fun text => Context.pushIfStarted_of_run hrun text true
  suffices h : ∃ f spaced, (isSpace m = false ∧ m ≠ '/' ∧ ∀ t : State, t.mark m = t.update (·.update f)) ∧
      f c = { c with
        run := c.run ++ [⟨m.toString, spaced⟩]
        parens := if m == '(' then c.parens + 1 else if m == ')' then c.parens - 1 else c.parens } by
    obtain ⟨f, spaced, ⟨hspace, hslash, hmark⟩, hf⟩ := h
    exact ⟨spaced, (step_mark_inContext hc.joinable hspace hslash hmark).trans (congrArg _ hf)⟩
  simp only [valueMarks, List.mem_cons, List.not_mem_nil, or_false] at hm
  rcases hm with rfl | rfl | rfl | rfl | rfl | rfl | rfl | rfl | rfl
  · obtain ⟨spaced, hpush⟩ := hpush "("
    exact ⟨.openParen, spaced, ⟨by decide, by decide, fun _ => rfl⟩, by rw [Context.openParen, hpush]; rfl⟩
  · exact ⟨.closeParen, false, ⟨by decide, by decide, fun _ => rfl⟩, hc.closeParen hrun (hparens (.inl rfl))⟩
  · exact ⟨.comma, false, ⟨by decide, by decide, fun _ => rfl⟩, hc.comma hrun⟩
  · obtain ⟨spaced, hpush⟩ := hpush "="
    exact ⟨.equals, spaced, ⟨by decide, by decide, fun _ => rfl⟩, hc.equals.trans hpush⟩
  · obtain ⟨spaced, hpush⟩ := hpush "*"
    exact ⟨_, spaced, ⟨by decide, by decide, fun _ => rfl⟩, hpush⟩
  · obtain ⟨spaced, hpush⟩ := hpush "+"
    exact ⟨_, spaced, ⟨by decide, by decide, fun _ => rfl⟩, hpush⟩
  · obtain ⟨spaced, hpush⟩ := hpush "-"
    exact ⟨_, spaced, ⟨by decide, by decide, fun _ => rfl⟩, hpush⟩
  · refine ⟨(·.pushFragment "&" true), true, ⟨by decide, by decide, fun _ => rfl⟩, ?_⟩
    change c.startRun.pushIfStarted "&" true = _
    rw [hstart, hclose]
    rfl
  · exact ⟨_, true, ⟨by decide, by decide, fun _ => rfl⟩, hclose ":"⟩

/-- A character of the code that does not go on with a word. -/
theorem plain_inValue (hc : c.Declares) (hbase : c.base = []) (hrun : run ≠ []) (parens : Nat)
    (claim : Option (List Claim)) {d : Char} (hdirective : d ≠ '#')
    (hbrackets : d ∉ ['\x7b', '\x7d', ';']) (hparens : d = ')' ∨ d = ',' → parens ≠ 0) :
    ∃ more claim', more.texts = (if valueMarks.contains d then [d.toString] else []) ∧
      (t.inContext { c with run, parens, claim }).plain d =
        t.inValue c (({ parens } : ValueReader).next d) (run ++ more) claim' := by
  let c' : Context := { c with run, parens, claim }
  have hc' : c'.Declares := hc.withRun run parens claim
  have hbegins := ValueReader.begins parens hdirective
  generalize ({ parens } : ValueReader).next d = r at hbegins
  have hnone : ∀ {d : Char}, d ∉ valueMarks → (if valueMarks.contains d then [d.toString] else []) = [] :=
    fun h => by simp [h]
  cases hbegins with
  | mark hmark =>
    obtain ⟨spaced, hstep⟩ := step_valueMark (t := t) hc' hrun hbase hmark hparens
    refine ⟨[⟨d.toString, spaced⟩], claim, by simp [Run.texts, hmark], hstep⟩
  | slash hslash =>
    subst hslash
    exact ⟨[], claim, by decide, by rw [List.append_nil]; rfl⟩
  | literal hquote =>
    have hmark : (t.inContext c').plain d = (t.inContext c').enter (.literal d [d]) := by
      have hjoinable := inContext_joinable (t := t) hc'.joinable
      rcases hquote with rfl | rfl
      · exact congrArg (State.enter (.literal '"' ['"'])) hjoinable
      · exact congrArg (State.enter (.literal '\'' ['\''])) hjoinable
    refine ⟨[], claim, (hnone ?_).symm, by rw [List.append_nil]; exact hmark⟩
    rcases hquote with rfl | rfl <;> decide
  | word hword =>
    have hnot := ValueReader.notMem_of_isWordStart hword
    simp only [List.mem_cons, not_or] at hnot
    refine ⟨[], claim, (hnone hnot.2.2.2).symm, ?_⟩
    rw [List.append_nil]
    exact step_wordStart_inContext hc'.joinable hword
  | nothing hother hword =>
    simp only [List.mem_cons, not_or] at hother
    have hstate : ∃ claim', (t.inContext c').plain d = t.inContext { c' with claim := claim' } := by
      unfold State.plain
      split
      · refine ⟨none, ?_⟩
        have hjoinable : c.joinable = false := hc.joinable
        cases c
        cases hjoinable
        rfl
      · split
        · exact ⟨claim, rfl⟩
        · rw [if_neg (by simpa using hother.1), inContext_joinable hc'.joinable]
          refine ⟨claim, ?_⟩
          have hnot := hother.2.2.2
          simp only [valueMarks, List.mem_cons, List.not_mem_nil, or_false, not_or] at hnot hbrackets
          unfold State.mark
          split
          case h_16 => exact if_neg (by simp [hword])
          all_goals simp_all
    obtain ⟨claim', hstate⟩ := hstate
    exact ⟨[], claim', (hnone hother.2.2.2).symm, by rw [List.append_nil]; exact hstate⟩

/-- A character of the code that does not go on with a word ends the one before it. -/
theorem step_ended (hc : c.Declares) (hequals : "=" ∈ run.texts)
    (htypedef : run.texts.head? ≠ some "typedef") (claim : Option (List Claim)) {d : Char}
    (hliteral : r.layer.isLiteral = false) (hcode : r.layer.isCode d = true)
    (hcontinues : r.continues d = false)
    (hends : r.inWord = true → d = ',' ∨ d = ';' → r.parens ≠ 0) :
    ∃ more, more.texts = r.ended ∧ (t.inValue c r run claim).step d =
      (t.inContext { c with run := run ++ more, parens := r.parens, claim }).plain d := by
  have hrun : run ≠ [] := by
    rintro rfl
    cases hequals
  let c' : Context := { c with run, parens := r.parens, claim }
  have hc' : c'.Declares := hc.withRun run r.parens claim
  have hstart : c'.startRun = c' := Context.startRun_of_run hrun
  obtain ⟨layer, text, parens⟩ := r
  cases layer with
  | code =>
    cases text with
    | nil => exact ⟨[], rfl, by rw [List.append_nil]; rfl⟩
    | cons first text =>
      let word := String.ofList (first :: text).reverse
      have hpart : isWordPart parens d = false := by
        simpa [ValueReader.continues, ValueReader.inWord] using hcontinues
      obtain ⟨spaced, hpush⟩ := exists_pushWord run word
      have hword : ({ t.scope with context := c' } : OpenScope).word word d =
          { t.scope with context := { c' with run := run ++ [⟨word, spaced⟩] } } := by
        rw [OpenScope.word_collected hc' (fun he => absurd he hrun) (fun _ => .inr (by rwa [hstart]))
          fun he => .inr ⟨by rwa [hstart], hends rfl he⟩]
        change ({ t.scope with context := { c'.startRun with run := c'.startRun.run.pushWord word } } :
          OpenScope) = _
        rw [hstart, hpush]
      refine ⟨[⟨word, spaced⟩], rfl, ?_⟩
      change (if isWordPart parens d then _ else State.plain d _) = _
      rw [if_neg (by simp [hpart])]
      exact congrArg (fun scope => State.plain d { t with mode := .plain, scope }) hword
  | slash =>
    simp only [Layer.isCode, Bool.and_eq_true, bne_iff_ne] at hcode
    have hpush : ∃ spaced, ({ c' with joinable := false } : Context).pushMark "/" =
        { c' with run := run ++ [⟨"/", spaced⟩] } := by
      have hjoinable : ({ c' with joinable := false } : Context) = c' := by rw [← hc'.joinable]
      rw [hjoinable, Context.pushMark_of_startRun (by rwa [hstart]), hstart]
      exact ⟨_, rfl⟩
    obtain ⟨spaced, hpush⟩ := hpush
    refine ⟨[⟨"/", spaced⟩], rfl, ?_⟩
    change (if d == '*' then _ else if d == '/' then _ else State.plain d _) = _
    rw [if_neg (by simp [hcode.1]), if_neg (by simp [hcode.2])]
    exact congrArg (fun context => State.plain d
      { t with mode := .plain, scope := { t.scope with context } }) hpush
  | _ => simp [Layer.isCode] at hcode

theorem step_inLiteral (hrun : run ≠ []) (claim : Option (List Claim))
    (hliteral : r.layer.isLiteral = true) (d : Char) :
    ∃ more, more.texts = r.completed d ∧
      (t.inValue c r run claim).step d = t.inValue c (r.next d) (run ++ more) claim := by
  obtain ⟨layer, text, parens⟩ := r
  cases layer with
  | literal quote =>
    let r : ValueReader := { layer := .literal quote, text, parens }
    let c' : Context := { c with run, parens, claim }
    have hstep : (t.inValue c r run claim).step d =
        if d == '\\' then (t.inContext c').enter (.literalEscape quote (d :: text))
        else if d == quote then (t.inContext c').endLiteral (d :: text)
        else (t.inContext c').enter (.literal quote (d :: text)) := rfl
    have hcompleted : r.completed d = if ((Layer.literal quote).next d).isLiteral then []
        else [String.ofList (d :: text).reverse] := rfl
    have hnext : r.next d =
        { layer := (Layer.literal quote).next d
          text := if ((Layer.literal quote).next d).isLiteral then d :: text else [], parens } := rfl
    have hlayer : (Layer.literal quote).next d =
        if d == '\\' then .literalEscape quote else if d == quote then .code else .literal quote := rfl
    rw [hstep, hcompleted, hnext, hlayer]
    by_cases hescape : (d == '\\') = true
    · rw [if_pos hescape, if_pos hescape]
      exact ⟨[], rfl, by rw [List.append_nil]; rfl⟩
    · rw [if_neg hescape, if_neg hescape]
      by_cases hquote : (d == quote) = true
      · rw [if_pos hquote, if_pos hquote]
        have hpush := Context.pushIfStarted_of_run (c := c') hrun (String.ofList (d :: text).reverse) true
        exact ⟨[⟨String.ofList (d :: text).reverse, true⟩], rfl, congrArg (t.inContext ·) hpush⟩
      · rw [if_neg hquote, if_neg hquote]
        exact ⟨[], rfl, by rw [List.append_nil]; rfl⟩
  | literalEscape quote => exact ⟨[], rfl, by rw [List.append_nil]; rfl⟩
  | _ => cases hliteral

theorem step_inValue (hc : c.Declares) (hbase : c.base = []) (hequals : "=" ∈ run.texts)
    (htypedef : run.texts.head? ≠ some "typedef") (claim : Option (List Claim)) {d : Char}
    (hd : r.allows d = true) :
    ∃ more claim', more.texts = r.completed d ∧
      (t.inValue c r run claim).step d = t.inValue c (r.next d) (run ++ more) claim' := by
  have hrun : run ≠ [] := by
    rintro rfl
    cases hequals
  obtain hliteral | ⟨hliteral, hcode, hdirective, hbrackets, hparens⟩ := ValueReader.allows_cases hd
  · obtain ⟨more, hmore, hstep⟩ := step_inLiteral (t := t) (c := c) hrun claim hliteral d
    exact ⟨more, claim, hmore, hstep⟩
  · cases hcontinues : r.continues d with
    | true =>
      obtain ⟨layer, text, parens⟩ := r
      have hword := hcontinues
      simp only [ValueReader.continues, ValueReader.inWord, Bool.and_eq_true, beq_iff_eq,
        Bool.not_eq_true', List.isEmpty_eq_false_iff] at hword
      obtain ⟨⟨rfl, htext⟩, hpart⟩ := hword
      obtain ⟨first, text, rfl⟩ := List.exists_cons_of_ne_nil htext
      refine ⟨[], claim, by simp [ValueReader.completed, Layer.isLiteral, hcontinues, Run.texts], ?_⟩
      rw [ValueReader.next, hcontinues, List.append_nil]
      exact if_pos hpart
    | false =>
      obtain ⟨before, hbefore, hstep⟩ := step_ended (t := t) hc hequals htypedef claim hliteral hcode
        hcontinues fun _ he => hparens (.inr (he.resolve_right (by rintro rfl; simp at hbrackets)))
      obtain ⟨more, claim', hmore, hplain⟩ := plain_inValue (t := t) hc hbase
        (List.append_ne_nil_of_left_ne_nil hrun before) r.parens claim
        hdirective hbrackets hparens
      refine ⟨before ++ more, claim', ?_, ?_⟩
      · have htexts : (before ++ more).texts = before.texts ++ more.texts := List.map_append
        rw [htexts, hbefore, hmore, ValueReader.completed, hliteral, hcontinues]
        rfl
      · rw [hstep, hplain, ValueReader.next_code hliteral hcode hcontinues, List.append_assoc]

theorem run_value (hc : c.Declares) (hbase : c.base = []) (hequals : "=" ∈ run.texts)
    (htypedef : run.texts.head? ≠ some "typedef") (claim : Option (List Claim)) {cs : List Char}
    (hcs : r.isValue cs = true) :
    ∃ more claim', more.texts ++ (cs.foldl ValueReader.next r).ended = r.parts cs ∧
      (t.inValue c r run claim).run cs =
        t.inValue c (cs.foldl ValueReader.next r) (run ++ more) claim' := by
  induction cs generalizing r run claim with
  | nil => exact ⟨[], claim, rfl, by rw [List.append_nil]; rfl⟩
  | cons d cs ih =>
    rw [ValueReader.isValue, Bool.and_eq_true] at hcs
    obtain ⟨before, claim₁, hbefore, hstep⟩ := step_inValue (t := t) hc hbase hequals htypedef claim hcs.1
    have htexts : (run ++ before).texts = run.texts ++ before.texts := List.map_append
    obtain ⟨more, claim₂, hmore, hrun⟩ := ih (r := r.next d)
      (show "=" ∈ (run ++ before).texts by rw [htexts]; exact List.mem_append_left _ hequals)
      (by
        rw [htexts, List.head?_append_of_ne_nil _ (List.ne_nil_of_mem hequals)]
        exact htypedef) claim₁ hcs.2
    refine ⟨before ++ more, claim₂, ?_, ?_⟩
    · have hboth : (before ++ more).texts = before.texts ++ more.texts := List.map_append
      rw [hboth, List.append_assoc, List.foldl_cons, hmore, hbefore]
      rfl
    · change ((t.inValue c r run claim).step d).run cs = _
      rw [hstep, hrun, List.append_assoc]
      rfl

end State

end HeaderDocs.Scan
