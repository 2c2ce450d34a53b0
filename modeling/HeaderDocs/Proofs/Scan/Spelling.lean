import HeaderDocs.Proofs.Scan.Prototype
import HeaderDocs.Scan.Source

/-!
# Reading the words of a prototype

A declaration is spelled as a row of `Token`s with white space after each. `Spells` leaves the white
space free, except that two words do not touch, and that nothing stands between the name of a
function and the parenthesis after it.

`Leads` says what the scanner makes of some of the tokens: it comes from one context to another,
whatever the white space is. Only the claim of a context depends on that, because a line may end in
it.

* `leads_type`: a written type becomes the run of the context.
-/
namespace HeaderDocs.Scan

open HeaderDocs.Text

/-! ## Tokens -/

inductive Token where
  | word (word : PlainWord)
  /-- A word with the parenthesis that directly follows it. -/
  | opening (word : PlainWord)
  | mark (c : Char)

def IsGap (cs : List Char) : Prop := cs.all isSpace = true

instance (cs : List Char) : Decidable (IsGap cs) := inferInstanceAs (Decidable (_ = true))

theorem isGap_cons {c : Char} {cs : List Char} :
    IsGap (c :: cs) ↔ isSpace c = true ∧ IsGap cs := by
  rw [IsGap, List.all_cons, Bool.and_eq_true]
  rfl

theorem IsGap.append {first second : List Char} (h : IsGap first) (h' : IsGap second) :
    IsGap (first ++ second) := by
  rw [IsGap, List.all_append, h, h']
  rfl

/-- The texts that are spelled as the tokens. -/
inductive Spells : List Token → List Char → Prop
  | nil : Spells [] []
  | word {w : PlainWord} {gap : List Char} {ts : List Token} {cs : List Char} :
      IsGap gap → (gap = [] → ∃ c, ts.head? = some (.mark c)) → Spells ts cs →
      Spells (.word w :: ts) (w.text.toList ++ (gap ++ cs))
  | opening {w : PlainWord} {gap : List Char} {ts : List Token} {cs : List Char} :
      IsGap gap → Spells ts cs → Spells (.opening w :: ts) (w.text.toList ++ '(' :: (gap ++ cs))
  | mark {c : Char} {gap : List Char} {ts : List Token} {cs : List Char} :
      IsGap gap → Spells ts cs → Spells (.mark c :: ts) (c :: (gap ++ cs))

def WrittenType.tokens (t : WrittenType) : List Token :=
  t.words.map (.word ·.toPlainWord) ++ List.replicate t.stars (.mark '*')

def defaultTokens : Option PlainWord → List Token
  | some value => [.mark '=', .word value]
  | none => []

def Parameter.tokens (p : Parameter) : List Token :=
  p.type.tokens ++ .word p.name.toPlainWord :: defaultTokens p.default

/-- A word that is no part of a prototype but where it has no parameters. -/
def voidWord : PlainWord := ⟨"void", by decide⟩

/-- The tokens between the parentheses. Where there are no parameters, `void` may stand for that. -/
def parameterTokens (void : Bool) : List Parameter → List Token
  | [] => if void then [.word voidWord] else []
  | p :: ps => p.tokens ++ ps.flatMap fun q => .mark ',' :: q.tokens

def Prototype.tokens (p : Prototype) (void : Bool) : List Token :=
  p.result.tokens ++ .opening p.name.toPlainWord :: parameterTokens void p.parameters ++
    [.mark ')', .mark ';']

/-! ## Characters -/

def spaces : List Char :=
  ([9, 10, 11, 12, 13, 28, 29, 30, 31, 32, 0x85, 0xA0, 0x1680, 0x2000, 0x2001, 0x2002, 0x2003,
    0x2004, 0x2005, 0x2006, 0x2007, 0x2008, 0x2009, 0x200A, 0x2028, 0x2029, 0x202F, 0x205F,
    0x3000] : List Nat).map Char.ofNat

theorem mem_spaces {c : Char} (h : isSpace c = true) : c ∈ spaces := by
  rw [← Char.ofNat_toNat c]
  refine List.mem_map_of_mem ?_
  have hrange : ∀ {n first k : Nat}, first ≤ n ∧ n ≤ first + k → n ∈ List.range' first (k + 1) := by
    intro n first k hn
    rw [List.mem_range'_1]
    omega
  simp only [isSpace, Bool.or_eq_true, Bool.and_eq_true, decide_eq_true_eq, beq_iff_eq] at h
  generalize c.toNat = n at h
  -- one `omega` for all of it is slow: the goal is an alternative of 29 numbers
  obtain ((((((((((h | h) | rfl) | rfl) | rfl) | h) | rfl) | rfl) | rfl) | rfl) | rfl) := h
  · exact (by decide : List.range' 9 5 ⊆ _) (hrange h)
  · exact (by decide : List.range' 28 5 ⊆ _) (hrange h)
  · decide
  · decide
  · decide
  · exact (by decide : List.range' 0x2000 11 ⊆ _) (hrange h)
  all_goals decide

theorem isWordPart_of_isSpace {c : Char} (h : isSpace c = true) (parens : Nat) :
    State.isWordPart parens c = false := by
  have hall : spaces.all (!State.isWordStart ·) = true := by decide +kernel
  have hstart : State.isWordStart c = false := by
    simpa using List.all_eq_true.mp hall c (mem_spaces h)
  have hmarks : c ∉ ['[', ']', ':', ','] := notMem_of_class (by decide) h
  simp only [List.mem_cons, List.not_mem_nil, or_false, not_or] at hmarks
  simp [State.isWordPart, hstart, hmarks]

theorem isWordStart_of_isSpace {c : Char} (h : isSpace c = true) : State.isWordStart c = false := by
  have hpart := isWordPart_of_isSpace h 0
  simp only [State.isWordPart, Bool.or_eq_false_iff] at hpart
  exact hpart.1.1.1.1

theorem isWordChar_of_isAsciiWordChar {c : Char} (h : isAsciiWordChar c = true) :
    isWordChar c = true := by
  have hascii : c = '_' ∨ c.toNat < 128 := by
    simp only [isAsciiWordChar, isAsciiLetter, isAsciiDigit, Bool.or_eq_true, Bool.and_eq_true,
      decide_eq_true_eq, beq_iff_eq] at h
    rcases h with ((⟨-, hz⟩ | ⟨-, hz⟩) | ⟨-, hz⟩) | hz
    · exact .inr (Nat.lt_of_le_of_lt (show c.toNat ≤ 122 from hz) (by decide))
    · exact .inr (Nat.lt_of_le_of_lt (show c.toNat ≤ 90 from hz) (by decide))
    · exact .inr (Nat.lt_of_le_of_lt (show c.toNat ≤ 57 from hz) (by decide))
    · exact .inl hz
  obtain rfl | hascii := hascii
  · decide
  · rw [isAsciiWordChar] at h
    rw [isWordChar, isAlphanumeric, if_pos hascii, h]

theorem isWordPart_of_isWordChar {c : Char} (h : isWordChar c = true) (parens : Nat) :
    State.isWordStart c = true ∧ State.isWordPart parens c = true := by
  have hstart : State.isWordStart c = true := by
    rw [isWordChar] at h
    simp [State.isWordStart, h]
  exact ⟨hstart, by simp [State.isWordPart, hstart]⟩

theorem not_isSpace_of_isWordChar {c : Char} (h : isWordChar c = true) : isSpace c = false := by
  have hall : spaces.all (!isWordChar ·) = true := by decide +kernel
  cases hs : isSpace c with
  | false => rfl
  | true => exact absurd (mem_spaces hs) (notMem_of_class hall h)

/-! ## Reading gaps and words -/

/-- The scanner outside of words, in a context of the innermost scope. -/
def State.inContext (t : State) (c : Context) : State :=
  { t with mode := .plain, scope := { t.scope with context := c } }

/-- The scanner between tokens of a source, in a context of its outermost scope. -/
def State.reading (s : OpenScope) (c : Context) : State := { scope := { s with context := c } }

/-- A context in which words are collected, outside of blocks and of lists of declarators. -/
structure Context.Collects (c : Context) : Prop where
  braces : c.braces = 0
  base : c.base = []
  joinable : c.joinable = false
  enumeration : c.enumeration = none

variable {s : OpenScope} {c : Context}

namespace State

section

variable {t : State}

theorem inContext_joinable (hc : c.joinable = false) :
    (t.inContext c).update (·.update ({ · with joinable := false })) = t.inContext c := by
  cases c
  cases hc
  rfl

theorem step_inContext (hc : c.joinable = false) {d : Char} {f : Context → Context}
    (hd : (t.inContext c).step d =
      ((t.inContext c).update (·.update ({ · with joinable := false }))).update (·.update f)) :
    (t.inContext c).step d = t.inContext (f c) := by
  rw [hd, inContext_joinable hc]
  rfl

theorem step_openBrace (hc : c.joinable = false) :
    (t.inContext c).step '\x7b' = (t.inContext c).openBrace := by
  change ((t.inContext c).update (·.update ({ · with joinable := false }))).openBrace = _
  rw [inContext_joinable hc]

/-- White space ends a line, if anything. -/
theorem run_space_inContext (hc : c.joinable = false) {gap : List Char} (hgap : IsGap gap) :
    (t.inContext c).run gap = t.inContext (if '\n' ∈ gap then c.endLine else c) := by
  induction gap generalizing c with
  | nil => rfl
  | cons d gap ih =>
    obtain ⟨hspace, hrest⟩ := isGap_cons.mp hgap
    by_cases hd : d = '\n'
    · subst hd
      have hstep : (t.inContext c).step '\n' = t.inContext c.endLine := by
        cases c
        cases hc
        rfl
      have hc' : c.endLine.joinable = false := hc
      change ((t.inContext c).step '\n').run gap = _
      rw [hstep, ih hc' hrest, if_pos List.mem_cons_self]
      split <;> rfl
    · have hstep : (t.inContext c).step d = t.inContext c := by
        change (t.inContext c).plain d = _
        unfold State.plain
        rw [if_neg (by simpa using hd), if_pos hspace]
      change ((t.inContext c).step d).run gap = _
      have hmem : '\n' ∈ d :: gap ↔ '\n' ∈ gap := by simp [Ne.symm hd]
      rw [hstep, ih hc hrest]
      simp only [hmem]

/-- White space records nothing. -/
theorem node_run_gap (hmode : t.mode = .plain) (henclosing : t.enclosing = [])
    (hjoinable : t.scope.context.joinable = false) {gap : List Char} (hgap : IsGap gap) :
    (t.run gap).result.node = t.scope.node := by
  have hstate : t = t.inContext t.scope.context := by
    cases t
    cases hmode
    rfl
  rw [hstate, run_space_inContext hjoinable hgap]
  unfold result inContext
  rw [henclosing]
  rfl

/-- White space leaves all but the claims as it was. -/
theorem run_gap_kept (hc : c.joinable = false) {gap : List Char} (hgap : IsGap gap)
    (rest : List Char) :
    ∃ claim, (claim = none ∨ claim = c.claim) ∧
      (t.inContext c).run (gap ++ rest) = (t.inContext { c with claim }).run rest := by
  rw [run_append, run_space_inContext hc hgap]
  split
  · exact ⟨none, .inl rfl, rfl⟩
  · exact ⟨c.claim, .inr rfl, rfl⟩

theorem run_gap_inContext (hc : c.joinable = false) (claim : Option (List Claim)) {gap : List Char}
    (hgap : IsGap gap) (rest : List Char) :
    ∃ claim', (t.inContext { c with claim }).run (gap ++ rest) =
      (t.inContext { c with claim := claim' }).run rest := by
  obtain ⟨claim', -, hread⟩ := run_gap_kept (t := t) (c := { c with claim }) hc hgap rest
  exact ⟨claim', hread⟩

theorem run_wordParts {cs : List Char} (hcs : ∀ d ∈ cs, isWordPart c.parens d = true)
    (before : List Char) :
    ((t.inContext c).enter (.word before)).run cs =
      (t.inContext c).enter (.word (cs.reverse ++ before)) := by
  induction cs generalizing before with
  | nil => rfl
  | cons d cs ih =>
    have hstep : ((t.inContext c).enter (.word before)).step d =
        (t.inContext c).enter (.word (d :: before)) :=
      if_pos (hcs d List.mem_cons_self)
    change (((t.inContext c).enter (.word before)).step d).run cs = _
    rw [hstep, ih fun e he => hcs e (List.mem_cons_of_mem _ he)]
    simp

theorem step_wordStart_inContext (hc : c.joinable = false) {d : Char} (hd : isWordStart d = true) :
    (t.inContext c).step d = (t.inContext c).enter (.word [d]) := by
  have hspace : isSpace d = false := by
    cases hs : isSpace d with
    | false => rfl
    | true =>
      rw [isWordStart_of_isSpace hs] at hd
      cases hd
  have hmarks : d ∉ ['\n', '/'] := notMem_of_class (by decide) hd
  simp only [List.mem_cons, List.not_mem_nil, or_false, not_or] at hmarks
  change (t.inContext c).plain d = _
  unfold State.plain
  rw [if_neg (by simp [hmarks]), if_neg (by simp [hspace]), if_neg (by simp [hmarks]),
    inContext_joinable hc]
  unfold State.mark
  split <;> first | exact absurd hd (by decide) | exact if_pos hd

theorem run_wordFrom (hc : c.joinable = false) {word : String} {first : Char} {cs : List Char}
    (hw : word.toList = first :: cs) (hfirst : isWordStart first = true)
    (hparts : ∀ e ∈ cs, isWordPart c.parens e = true) {d : Char}
    (hd : isWordPart c.parens d = false) (rest : List Char) :
    (t.inContext c).run (word.toList ++ d :: rest) =
      ((t.inContext c).update (·.word word d)).run (d :: rest) := by
  have hreverse : String.ofList (cs.reverse ++ [first]).reverse = word := by
    rw [List.reverse_append, List.reverse_reverse]
    exact (congrArg String.ofList hw).symm.trans (String.ofList_toList)
  have hstep : ((t.inContext c).enter (.word (cs.reverse ++ [first]))).step d =
      ((t.inContext c).update (·.word word d)).step d := by
    change (if isWordPart c.parens d then _ else _) = _
    rw [if_neg (by simp [hd]), hreverse]
    rfl
  rw [hw, List.cons_append]
  change ((t.inContext c).step first).run (cs ++ d :: rest) = _
  rw [step_wordStart_inContext hc hfirst, run_append, run_wordParts hparts]
  exact congrArg (State.run · rest) hstep

theorem run_wordStarts (hc : c.joinable = false) {word : String} (hne : word.toList ≠ [])
    (hchars : ∀ e ∈ word.toList, isWordStart e = true) {d : Char}
    (hd : isWordPart c.parens d = false) (rest : List Char) :
    (t.inContext c).run (word.toList ++ d :: rest) =
      ((t.inContext c).update (·.word word d)).run (d :: rest) := by
  obtain ⟨first, cs, hw⟩ := List.exists_cons_of_ne_nil hne
  rw [hw] at hchars
  exact run_wordFrom hc hw (hchars first List.mem_cons_self)
    (fun e he => by simp [isWordPart, hchars e (List.mem_cons_of_mem _ he)]) hd rest

end

theorem step_reading (hc : c.joinable = false) {d : Char} {f : Context → Context}
    (hd : (reading s c).step d =
      ((reading s c).update (·.update ({ · with joinable := false }))).update (·.update f)) :
    (reading s c).step d = reading s (f c) :=
  step_inContext (t := { scope := s }) hc hd

theorem run_gap (hc : c.joinable = false) {gap : List Char} (hgap : IsGap gap) :
    (reading s c).run gap = reading s (if '\n' ∈ gap then c.endLine else c) :=
  run_space_inContext (t := { scope := s }) hc hgap

/-- White space changes nothing where no declaration has ended on the line. -/
theorem run_gap_unclaimed (hc : c.joinable = false) (hclaim : c.claim = none) {gap : List Char}
    (hgap : IsGap gap) : (reading s c).run gap = reading s c := by
  have hend : c.endLine = c := by
    cases c
    cases hclaim
    rfl
  rw [run_gap hc hgap, hend, ite_self]

theorem step_wordStart (hc : c.joinable = false) {d : Char} (hd : isWordChar d = true) :
    (reading s c).step d = (reading s c).enter (.word [d]) :=
  step_wordStart_inContext (t := { scope := s }) hc (isWordPart_of_isWordChar hd 0).1

theorem run_wordChars (hc : c.joinable = false) {word : String} (hne : word.toList ≠ [])
    (hchars : ∀ e ∈ word.toList, isWordChar e = true) {d : Char}
    (hd : isWordPart c.parens d = false) (rest : List Char) :
    (reading s c).run (word.toList ++ d :: rest) =
      (((reading s c).update (·.word word d)).plain d).run rest :=
  run_wordStarts (t := { scope := s }) hc hne
    (fun e he => (isWordPart_of_isWordChar (hchars e he) 0).1) hd rest

theorem run_word (hc : c.joinable = false) (w : PlainWord) {d : Char}
    (hd : isWordPart c.parens d = false) (rest : List Char) :
    (reading s c).run (w.text.toList ++ d :: rest) =
      (((reading s c).update (·.word w.text d)).plain d).run rest :=
  run_wordChars hc w.chars.1 (fun e he => isWordChar_of_isAsciiWordChar (w.chars.2 e he)) hd rest

end State

/-! ## Reading tokens -/

/-- Reading some tokens comes from one context to another one at the tokens that are left. The claim
of a context depends on where lines end. -/
def Leads (s : OpenScope) (c : Context) (ts : List Token) (c' : Context) (ts' : List Token) : Prop :=
  ∀ claim cs, Spells ts cs → ∃ claim' cs', Spells ts' cs' ∧
    (State.reading s { c with claim }).run cs =
      (State.reading s { c' with claim := claim' }).run cs'

variable {c' c'' : Context} {ts ts' ts'' : List Token} {w : PlainWord}

theorem Leads.refl : Leads s c ts c ts := fun claim cs hcs => ⟨claim, cs, hcs, rfl⟩

theorem Leads.trans (h : Leads s c ts c' ts') (h' : Leads s c' ts' c'' ts'') :
    Leads s c ts c'' ts'' := by
  intro claim cs hcs
  obtain ⟨claim', cs', hcs', hrun⟩ := h claim cs hcs
  obtain ⟨claim'', cs'', hcs'', hrun'⟩ := h' claim' cs' hcs'
  exact ⟨claim'', cs'', hcs'', hrun.trans hrun'⟩

theorem run_gap_claim (hc : c.joinable = false) (claim : Option (List Claim)) {gap : List Char}
    (hgap : IsGap gap) (cs : List Char) :
    ∃ claim', (State.reading s { c with claim }).run (gap ++ cs) =
      (State.reading s { c with claim := claim' }).run cs :=
  State.run_gap_inContext (t := { scope := s }) hc claim hgap cs

/-- The scanner knows a word with the character that ends it: white space, or the mark that comes
next. -/
theorem exists_run_word (hc : c.joinable = false)
    (hts : ∀ m, ts.head? = some (.mark m) → State.isWordPart c.parens m = false) {cs : List Char}
    (h : Spells (.word w :: ts) cs) :
    ∃ d gap cs', IsGap gap ∧ Spells ts cs' ∧
      (gap = [] → ts.head? = some (.mark d)) ∧ (gap ≠ [] → isSpace d = true) ∧
      (State.reading s c).run cs =
        ((State.reading s c).update (·.word w.text d)).run (gap ++ cs') := by
  cases h with
  | word hgap hsep hcs' =>
    rename_i gap cs'
    cases gap with
    | nil =>
      obtain ⟨m, hm⟩ := hsep rfl
      have hend := hts m hm
      cases hcs' with
      | mark hgap' hrest =>
        cases hm
        exact ⟨m, [], _, hgap, .mark hgap' hrest, fun _ => rfl, fun he => absurd rfl he,
          State.run_word hc w hend _⟩
      | _ => cases hm
    | cons d gap =>
      have hspace : isSpace d = true := (isGap_cons.mp hgap).1
      exact ⟨d, d :: gap, cs', hgap, hcs', fun he => absurd he (List.cons_ne_nil _ _), fun _ => hspace,
        State.run_word hc w (isWordPart_of_isSpace hspace _) _⟩

/-- A word of which the scanner makes the same whatever ends it. -/
theorem leads_word (hc : c.joinable = false) (hc' : c'.joinable = false)
    (hts : ∀ m, ts.head? = some (.mark m) → State.isWordPart c.parens m = false)
    (hword : ∀ claim d, isSpace d = true ∨ ts.head? = some (.mark d) →
      ({ s with context := { c with claim } } : OpenScope).word w.text d =
        { s with context := { c' with claim } }) :
    Leads s c (.word w :: ts) c' ts := by
  intro claim cs hcs
  have hjoinable : ({ c with claim } : Context).joinable = false := hc
  obtain ⟨d, gap, cs', hgap, hcs', hmark, hspace, hrun⟩ := exists_run_word hjoinable hts hcs
  have hd : isSpace d = true ∨ ts.head? = some (.mark d) := by
    by_cases hnil : gap = []
    · exact .inr (hmark hnil)
    · exact .inl (hspace hnil)
  have hupdate : (State.reading s { c with claim }).update (·.word w.text d) =
      State.reading s { c' with claim } :=
    congrArg (fun scope => ({ scope } : State)) (hword claim d hd)
  obtain ⟨claim', hgap'⟩ := run_gap_claim hc' claim hgap cs'
  exact ⟨claim', cs', hcs', by rw [hrun, hupdate, hgap']⟩

theorem leads_mark (hc' : c'.joinable = false) {m : Char}
    (hstep : ∀ claim, ∃ claim', (State.reading s { c with claim }).step m =
      State.reading s { c' with claim := claim' }) :
    Leads s c (.mark m :: ts) c' ts := by
  intro claim cs hcs
  cases hcs with
  | mark hgap hcs' =>
    obtain ⟨claim', hstep⟩ := hstep claim
    obtain ⟨claim'', hgap'⟩ := run_gap_claim hc' claim' hgap _
    refine ⟨claim'', _, hcs', ?_⟩
    change ((State.reading s { c with claim }).step m).run _ = _
    rw [hstep, hgap']

/-! ## Written types -/

namespace Context

theorem startRun_of_base (hbase : c.base = []) : c.startRun = c := by
  cases c
  cases hbase
  simp [startRun]

theorem startRun_of_run (hrun : c.run ≠ []) : c.startRun = c := if_neg (by simpa using hrun)

namespace Collects

theorem startRun (hc : c.Collects) : c.startRun = c := startRun_of_base hc.base

theorem withRun (hc : c.Collects) (run : Run) : ({ c with run } : Context).Collects :=
  ⟨hc.braces, hc.base, hc.joinable, hc.enumeration⟩

theorem withClaim (hc : c.Collects) (claim : Option (List Claim)) :
    ({ c with claim } : Context).Collects :=
  ⟨hc.braces, hc.base, hc.joinable, hc.enumeration⟩

theorem word (hc : c.Collects) (hroot : s.node.kind = .root) {d : Char}
    (hd : d ∉ ['(', ')', ',', ';']) (word : String) :
    ({ s with context := c } : OpenScope).word word d =
      { s with context := { c with run := c.run.pushWord word } } := by
  simp only [List.mem_cons, List.not_mem_nil, or_false, not_or] at hd
  have hrecord : s.node.kind.isRecord = false := by rw [hroot]; rfl
  unfold OpenScope.word
  rw [if_pos (by simpa using hc.braces)]
  unfold OpenScope.declarationWord
  rw [if_neg (by simp [hrecord])]
  simp [OpenScope.update, hc.startRun, hd, Context.pushWord]

theorem pushMark (hc : c.Collects) (hrun : c.run ≠ []) (mark : String) :
    c.pushMark mark = { c with run := c.run.pushMark mark } := by
  unfold Context.pushMark
  rw [hc.startRun, if_neg (by simpa using hrun)]

theorem equals (hc : c.Collects) (hrun : c.run ≠ []) :
    c.equals = { c with run := c.run.pushMark "=" } := by
  unfold Context.equals
  rw [if_neg (by simp [Context.inEnumeration, hc.enumeration]), hc.pushMark hrun]

end Collects

end Context

theorem leads_collect (hc : c.Collects) (hroot : s.node.kind = .root) {run : Run}
    (hrun : c.run.pushWord w.text = run) (hts : ∀ m, ts.head? = some (.mark m) → m ∈ ['*', '=']) :
    Leads s c (.word w :: ts) { c with run } ts := by
  subst hrun
  refine leads_word hc.joinable hc.joinable (fun m hm => ?_) fun claim d hd => ?_
  · have hall : ['*', '='].all (!State.isWordPart c.parens ·) = true := by
      simp [State.isWordPart]
      decide
    simpa using List.all_eq_true.mp hall m (hts m hm)
  · refine (hc.withClaim claim).word hroot ?_ w.text
    rcases hd with hspace | hm
    · exact notMem_of_class (by decide) hspace
    · have hmark := hts d hm
      simp only [List.mem_cons, List.not_mem_nil, or_false] at hmark
      rcases hmark with rfl | rfl <;> decide

theorem leads_star (hc : c.Collects) (hne : c.run ≠ []) {run : Run}
    (hrun : c.run.pushMark "*" = run) : Leads s c (.mark '*' :: ts) { c with run } ts := by
  subst hrun
  refine leads_mark (hc.withRun _).joinable fun claim => ⟨claim, ?_⟩
  have hclaim := hc.withClaim claim
  rw [State.step_reading hclaim.joinable (f := (·.pushMark "*")) rfl, hclaim.pushMark hne]

theorem leads_equals (hc : c.Collects) (hne : c.run ≠ []) {run : Run}
    (hrun : c.run.pushMark "=" = run) : Leads s c (.mark '=' :: ts) { c with run } ts := by
  subst hrun
  refine leads_mark (hc.withRun _).joinable fun claim => ⟨claim, ?_⟩
  have hclaim := hc.withClaim claim
  rw [State.step_reading hclaim.joinable (f := .equals) rfl, hclaim.equals hne]

/-! ### Fragments -/

theorem pushWord_behind (before : Run) (spaced : Bool) {text : String} (hne : text.toList ≠ [])
    (hchars : ∀ c ∈ text.toList, isWordChar c = true) (word : String) :
    Run.pushWord (before ++ [⟨text, spaced⟩]) word =
      before ++ [⟨text, spaced⟩] ++ [⟨word, true⟩] := by
  obtain ⟨first, cs, htext⟩ := List.exists_cons_of_ne_nil hne
  have hmarks : first ∉ ['(', '*', '-', '+'] :=
    notMem_of_class (by decide) (hchars first (htext ▸ List.mem_cons_self))
  have hne : ∀ d ∈ ['(', '*', '-', '+'], text.toList.head? ≠ some d := by
    rintro d hd he
    rw [htext, List.head?_cons, Option.some.injEq] at he
    exact hmarks (he ▸ hd)
  have hsign : ∀ sign : String, sign = "-" ∨ sign = "+" → text ≠ sign := by
    rintro _ (rfl | rfl) he
    · exact hne '-' (by decide) (by rw [he]; rfl)
    · exact hne '+' (by decide) (by rw [he]; rfl)
  simp [Run.pushWord, Run.push, Fragment.startsWith, Fragment.isSign, hne, hsign]

theorem pushMark_behind (before : Run) (spaced : Bool) {text : String} (hne : text.toList ≠ [])
    (hchars : ∀ c ∈ text.toList, isWordChar c = true) (mark : String) :
    Run.pushMark (before ++ [⟨text, spaced⟩]) mark =
      before ++ [⟨text, spaced⟩] ++ [⟨mark, true⟩] := by
  simp [Run.pushMark, Run.push, Fragment.endsWord, List.getLast?_eq_some_getLast hne,
    hchars _ (List.getLast_mem hne)]

/-- The last fragment of a run is a word. -/
def EndsInWord (run : Run) : Prop :=
  ∃ before, ∃ w : PlainWord, ∃ spaced, run = before ++ [⟨w.text, spaced⟩]

theorem endsInWord_concat (run : Run) (w : PlainWord) (spaced : Bool) :
    EndsInWord (run ++ [⟨w.text, spaced⟩]) := ⟨run, w, spaced, rfl⟩

theorem EndsInWord.ne_nil {run : Run} (h : EndsInWord run) : run ≠ [] := by
  obtain ⟨before, w, spaced, rfl⟩ := h
  simp

theorem EndsInWord.pushWord {run : Run} (h : EndsInWord run) (word : String) :
    run.pushWord word = run ++ [⟨word, true⟩] := by
  obtain ⟨before, w, spaced, rfl⟩ := h
  exact pushWord_behind before spaced w.chars.1
    (fun c hc => isWordChar_of_isAsciiWordChar (w.chars.2 c hc)) word

theorem EndsInWord.pushMark {run : Run} (h : EndsInWord run) (mark : String) :
    run.pushMark mark = run ++ [⟨mark, true⟩] := by
  obtain ⟨before, w, spaced, rfl⟩ := h
  exact pushMark_behind before spaced w.chars.1
    (fun c hc => isWordChar_of_isAsciiWordChar (w.chars.2 c hc)) mark

theorem pushMark_star (run : Run) (spaced : Bool) :
    Run.pushMark (run ++ [⟨"*", spaced⟩]) "*" = run ++ [⟨"*", spaced⟩] ++ [⟨"*", false⟩] := by
  have hstar : Fragment.endsWord ⟨"*", spaced⟩ = false := by
    cases spaced <;> decide
  simp [Run.pushMark, Run.push, hstar]

theorem EndsInWord.append_words {run : Run} (h : EndsInWord run) (words : List Identifier) :
    EndsInWord (run ++ words.map (⟨·.text, true⟩)) := by
  rcases List.eq_nil_or_concat words with rfl | ⟨before, last, rfl⟩
  · simpa using h
  · rw [List.concat_eq_append, List.map_append, ← List.append_assoc]
    exact endsInWord_concat _ last.toPlainWord true

theorem leads_words (hc : c.Collects) (hroot : s.node.kind = .root) (hend : EndsInWord c.run)
    {words : List Identifier} {run : Run} (hrun : c.run ++ words.map (⟨·.text, true⟩) = run)
    (hts : ∀ m, ts.head? = some (.mark m) → m ∈ ['*', '=']) :
    Leads s c (words.map (.word ·.toPlainWord) ++ ts) { c with run } ts := by
  induction words generalizing c with
  | nil =>
    subst hrun
    simpa using Leads.refl
  | cons word words ih =>
    have hhead : ∀ m, (words.map (Token.word ·.toPlainWord) ++ ts).head? = some (.mark m) →
        m ∈ ['*', '='] := by
      cases words with
      | nil => exact hts
      | cons => exact fun m hm => by cases hm
    refine (leads_collect (w := word.toPlainWord) hc hroot (hend.pushWord _) hhead).trans ?_
    exact ih (hc.withRun _) (endsInWord_concat c.run word.toPlainWord true)
      ((List.append_assoc ..).trans hrun)

theorem leads_moreStars (hc : c.Collects) {before run : Run} {spaced : Bool}
    (hend : c.run = before ++ [⟨"*", spaced⟩]) {n : Nat}
    (hrun : c.run ++ List.replicate n ⟨"*", false⟩ = run) :
    Leads s c (List.replicate n (.mark '*') ++ ts) { c with run } ts := by
  induction n generalizing c before spaced with
  | zero =>
    subst hrun
    simpa using Leads.refl
  | succ n ih =>
    have hpush : c.run.pushMark "*" = c.run ++ [⟨"*", false⟩] := by rw [hend, pushMark_star]
    refine (leads_star hc (by simp [hend]) hpush).trans ?_
    exact ih (hc.withRun _) rfl ((List.append_assoc ..).trans hrun)

theorem leads_stars (hc : c.Collects) (hend : EndsInWord c.run) {n : Nat} {run : Run}
    (hrun : c.run ++ starRun n = run) :
    Leads s c (List.replicate n (.mark '*') ++ ts) { c with run } ts := by
  subst hrun
  cases n with
  | zero => simpa [starRun] using Leads.refl
  | succ n =>
    refine (leads_star hc hend.ne_nil (hend.pushMark _)).trans ?_
    exact leads_moreStars (hc.withRun (c.run ++ [⟨"*", true⟩])) rfl (List.append_assoc ..)

/-- A written type before a name becomes the run of the context. -/
theorem leads_type (hc : c.Collects) (hroot : s.node.kind = .root) (hrun : c.run = [])
    (t : WrittenType) (hts : ∀ m, ts.head? ≠ some (.mark m)) :
    Leads s c (t.tokens ++ ts) { c with run := t.toRun } ts := by
  obtain ⟨first, rest, hwords, htype⟩ := t.toRun_eq
  have hstars : ∀ m, (List.replicate t.stars (Token.mark '*') ++ ts).head? = some (.mark m) →
      m ∈ ['*', '='] := by
    cases t.stars with
    | zero => exact fun m hm => absurd hm (hts m)
    | succ n =>
      intro m hm
      cases hm
      decide
  have hnext : ∀ m, (rest.map (Token.word ·.toPlainWord) ++
      (List.replicate t.stars (Token.mark '*') ++ ts)).head? = some (.mark m) → m ∈ ['*', '='] := by
    cases rest with
    | nil => exact hstars
    | cons => exact fun m hm => by cases hm
  have hpush : c.run.pushWord first.text = [⟨first.text, false⟩] := by
    rw [hrun]
    rfl
  have hend : EndsInWord [⟨first.text, false⟩] := endsInWord_concat [] first.toPlainWord false
  have htokens : t.tokens ++ ts = .word first.toPlainWord :: (rest.map (.word ·.toPlainWord) ++
      (List.replicate t.stars (.mark '*') ++ ts)) := by
    simp [WrittenType.tokens, hwords]
  rw [htokens]
  refine (leads_collect hc hroot hpush hnext).trans ?_
  refine (leads_words (hc.withRun _) hroot hend rfl hstars).trans ?_
  exact leads_stars (hc.withRun _) (hend.append_words rest) htype.symm

end HeaderDocs.Scan
