import HeaderDocs.Proofs.Scan.Names

/-!
# Enumerators

The body of an enumeration is a row of names, some with values, and commas between them. What
becomes of it is decided character by character: a word is declared as a constant unless an equals
sign has been read after the last comma. A comma in the parentheses of a value counts as well.

* `EnumeratorReader.declared`: the words of a text that are declared.
* `EnumeratorReader.declared_enumerators`: those of a body are the names of the enumerators, and
  what is left over of their values.
* `Enumerator.leftover_eq_nil`: nothing is left over of a value without commas.
-/
namespace HeaderDocs.Scan

open HeaderDocs.Text

/-! ## Names and numbers -/

theorem not_isDigit_of_isLetter {c : Char} (h : isLetter c = true) : isDigit c = false := by
  -- with `Nat.blt`, which the kernel computes without unfolding it
  have hranges : letterRanges.all (fun l =>
      digitRanges.all fun d => Nat.blt l.2 d.1 || Nat.blt d.2 l.1) = true := by
    decide +kernel
  unfold isLetter at h
  unfold isDigit
  split at h
  · rename_i hascii
    rw [if_pos hascii]
    simp only [isAsciiLetter, isAsciiDigit, Bool.or_eq_true, Bool.and_eq_true, decide_eq_true_eq,
      Bool.and_eq_false_iff, decide_eq_false_iff_not] at h ⊢
    right
    intro hdigit
    have hlt : '9' < c := by
      rcases h with h | h
      · exact Std.lt_of_lt_of_le (by decide) h.1
      · exact Std.lt_of_lt_of_le (by decide) h.1
    exact absurd hdigit (Std.not_le.mpr hlt)
  · rename_i hascii
    rw [if_neg hascii]
    obtain ⟨l, hl, hc⟩ := List.any_eq_true.mp h
    refine List.any_eq_false.mpr fun d hd => ?_
    have hdisjoint := List.all_eq_true.mp (List.all_eq_true.mp hranges l hl) d hd
    simp only [Bool.and_eq_true, decide_eq_true_eq, Bool.or_eq_true, Nat.blt_eq, not_and]
      at hc hdisjoint ⊢
    omega

theorem Name.not_isDigit_head (w : Name) : w.text.toList.head?.any isDigit = false := by
  have h := w.valid
  cases htext : w.text.toList with
  | nil => rfl
  | cons c cs =>
    simp only [htext, isName, Bool.and_eq_true, Bool.or_eq_true, beq_iff_eq] at h
    rw [List.head?_cons, Option.any_some]
    rcases h.1 with hc | rfl
    · exact not_isDigit_of_isLetter hc
    · decide

/-! ## Which words are declared -/

structure EnumeratorReader where
  /-- The word being read, backwards. -/
  word : List Char := []
  parens : Nat := 0
  /-- Whether an equals sign has been read after the last comma. -/
  inValue : Bool := false
deriving DecidableEq, Repr

namespace EnumeratorReader

variable (r : EnumeratorReader)

/-- Whether a character goes on with the word being read. -/
def continues (c : Char) : Bool := !r.word.isEmpty && State.isWordPart r.parens c

/-- The word that a character ends, if it is declared. Numbers are not. -/
def ended? (c : Char) : Option String :=
  if r.word.isEmpty || r.continues c || r.inValue || r.word.getLast?.any isDigit then none
  else some (String.ofList r.word.reverse)

/-- Reads a character that ends the word before it, if there is one. -/
def begin (c : Char) : EnumeratorReader :=
  { word := if State.isWordStart c then [c] else []
    parens := if c == '(' then r.parens + 1 else if c == ')' then r.parens - 1 else r.parens
    inValue := if c == ',' then false else if c == '=' then true else r.inValue }

def next (c : Char) : EnumeratorReader :=
  if r.continues c then { r with word := c :: r.word } else r.begin c

/-- The words that are declared while a text is read. -/
def declared (r : EnumeratorReader) : List Char → List String
  | [] => []
  | c :: cs => (r.ended? c).toList ++ declared (r.next c) cs

theorem declared_append (first second : List Char) :
    declared r (first ++ second) = declared r first ++ declared (first.foldl next r) second := by
  induction first generalizing r with
  | nil => rfl
  | cons c first ih => simp [declared, ih]

example : declared {} "A = f(x, y + 1), B\x7d".toList = ["A", "y", "B"] := by decide +kernel

end EnumeratorReader

/-! ## Values -/

/-- How many parentheses are open after a text that began with `depth` open ones, if every comma in
it is inside of parentheses and no parenthesis closes more than is open. -/
def parenDepth? (depth : Nat) : List Char → Option Nat
  | [] => some depth
  | c :: cs =>
    if c == '(' then parenDepth? (depth + 1) cs
    else if c == ')' then if depth == 0 then none else parenDepth? (depth - 1) cs
    else if c == ',' && depth == 0 then none
    else parenDepth? depth cs

/-- Whether a text is the value of a constant: not only white space, with balanced parentheses, and
with commas only inside of these. -/
def isEnumeratorValue (value : List Char) : Bool :=
  value.any (!isSpace ·) && parenDepth? 0 value == some 0

/-- A constant with its value, if it is given one. -/
structure Enumerator where
  name : Name
  value : Option String := none
  valid : value.all (isEnumeratorValue ·.toList) = true := by rfl

namespace Enumerator

/-- What is declared of the value, up to the mark that ends it. -/
def leftover (e : Enumerator) : List String :=
  match e.value with
  | some v => EnumeratorReader.declared { inValue := true } (v.toList ++ [','])
  | none => []

/-- The text of the value, with the equals sign before it. -/
def valueText (e : Enumerator) : List Char :=
  match e.value with
  | some v => '=' :: v.toList
  | none => []

def Spelled (e : Enumerator) (cs : List Char) : Prop :=
  ∃ before after, IsGap before ∧ IsGap after ∧
    cs = before ++ (e.name.text.toList ++ (after ++ e.valueText))

end Enumerator

/-- How enumerators are written. There may be a comma behind the last one. -/
inductive EnumeratorText : List Enumerator → List Char → Prop
  | none {gap : List Char} : IsGap gap → EnumeratorText [] gap
  | last {e : Enumerator} {cs : List Char} : e.Spelled cs → EnumeratorText [e] cs
  | cons {e : Enumerator} {es : List Enumerator} {cs rest : List Char} :
      e.Spelled cs → EnumeratorText es rest → EnumeratorText (e :: es) (cs ++ ',' :: rest)

namespace EnumeratorReader

variable {r : EnumeratorReader}

/-- No mark but a bracket or a colon goes on with a word outside of parentheses. -/
theorem not_continues {c : Char} (hc : State.isWordPart r.parens c = false) :
    r.continues c = false := by
  rw [continues, hc, Bool.and_false]

theorem next_of_not_continues {c : Char} (hc : r.continues c = false) : r.next c = r.begin c := by
  rw [next, if_neg (by simp [hc])]

theorem ended?_of_noWord (hr : r.word = []) (c : Char) : r.ended? c = none := by
  rw [ended?, hr]
  rfl

/-! ## Gaps and names -/

theorem begin_space (hr : r.word = []) {c : Char} (hc : isSpace c = true) : r.begin c = r := by
  have hstart : State.isWordStart c = false := by
    have hpart := isWordPart_of_isSpace hc 0
    simp only [State.isWordPart, Bool.or_eq_false_iff] at hpart
    exact hpart.1.1.1.1
  have hmarks := notMem_of_class (by decide : ['(', ')', ',', '='].all (!isSpace ·) = true) hc
  simp only [List.mem_cons, List.not_mem_nil, or_false, not_or] at hmarks
  obtain ⟨word, parens, inValue⟩ := r
  cases hr
  simp [begin, hstart, hmarks]

/-- White space is passed over. -/
theorem declared_gap (hr : r.word = []) {gap : List Char} (hgap : IsGap gap) (cs : List Char) :
    declared r (gap ++ cs) = declared r cs := by
  induction gap with
  | nil => rfl
  | cons c gap ih =>
    obtain ⟨hspace, hrest⟩ := isGap_cons.mp hgap
    have hnext : r.next c = r := by
      rw [next_of_not_continues (by rw [continues, hr]; rfl), begin_space hr hspace]
    rw [List.cons_append, declared, ended?_of_noWord hr, hnext, ih hrest]
    rfl

theorem declared_wordChars {text : List Char} (htext : ∀ c ∈ text, isWordChar c = true)
    (hr : r.word ≠ []) (cs : List Char) :
    declared r (text ++ cs) = declared { r with word := text.reverse ++ r.word } cs := by
  induction text generalizing r with
  | nil => rfl
  | cons c text ih =>
    have hcontinues : r.continues c = true := by
      simp [continues, hr, (isWordPart_of_isWordChar (htext c (List.mem_cons_self ..)) r.parens).2]
    have hended : r.ended? c = none := by simp [ended?, hcontinues]
    have hnext : r.next c = { r with word := c :: r.word } := if_pos hcontinues
    rw [List.cons_append, declared, hended, hnext,
      ih (fun d hd => htext d (List.mem_cons_of_mem _ hd)) (List.cons_ne_nil _ _)]
    simp

theorem declared_name (w : Name) {d : Char} (hd : State.isWordPart 0 d = false) (cs : List Char) :
    declared {} (w.text.toList ++ d :: cs) =
      w.text :: declared (begin {} d) cs := by
  obtain ⟨hne, hchars⟩ := w.chars
  have hdigit := w.not_isDigit_head
  cases htext : w.text.toList with
  | nil => exact absurd htext hne
  | cons c text =>
    rw [htext] at hchars hdigit
    have hc := hchars c (List.mem_cons_self ..)
    have hmark : ∀ mark : Char, isWordChar mark = false → c ≠ mark := by
      rintro mark hmark rfl
      rw [hmark] at hc
      cases hc
    have hfirst : next {} c = { word := [c] } := by
      rw [next_of_not_continues rfl, begin, if_pos (isWordPart_of_isWordChar hc 0).1]
      simp [hmark '(' (by decide +kernel), hmark ')' (by decide +kernel),
        hmark ',' (by decide +kernel), hmark '=' (by decide +kernel)]
    let whole : EnumeratorReader := { word := text.reverse ++ [c] }
    have hnot : whole.continues d = false := not_continues hd
    have hended : whole.ended? d = some w.text := by
      have hlast : (text.reverse ++ [c]).getLast?.any isDigit = false := by simpa using hdigit
      have hword : String.ofList (text.reverse ++ [c]).reverse = w.text := by
        rw [List.reverse_append, List.reverse_reverse, List.reverse_singleton,
          List.singleton_append, ← htext, String.ofList_toList]
      simp only [ended?, hnot, whole, hlast, hword]
      simp
    rw [List.cons_append, declared, ended?_of_noWord rfl, hfirst,
      declared_wordChars (fun e he => hchars e (List.mem_cons_of_mem _ he)) (List.cons_ne_nil _ _)]
    change declared whole (d :: cs) = _
    rw [declared, hended, next_of_not_continues hnot]
    rfl

/-! ## Values -/

/-- Parentheses are never parts of words. -/
theorem parens_next (r : EnumeratorReader) (c : Char) :
    (r.next c).parens =
      if c == '(' then r.parens + 1 else if c == ')' then r.parens - 1 else r.parens := by
  unfold next
  split
  · rename_i hcontinues
    have hparen : ∀ mark : Char, mark = '(' ∨ mark = ')' → c ≠ mark := by
      rintro mark hmark rfl
      have hpart : State.isWordPart r.parens c = false := by
        rcases hmark with rfl | rfl <;> simp [State.isWordPart] <;> decide
      rw [continues, hpart, Bool.and_false] at hcontinues
      cases hcontinues
    simp [hparen '(' (.inl rfl), hparen ')' (.inr rfl)]
  · rfl

theorem parens_foldl {cs : List Char} {depth : Nat} (h : parenDepth? r.parens cs = some depth) :
    (cs.foldl next r).parens = depth := by
  induction cs generalizing r with
  | nil => exact Option.some.inj h
  | cons c cs ih =>
    have hnext := parens_next r c
    refine ih (r := r.next c) ?_
    rw [parenDepth?] at h
    rw [hnext]
    split at h
    · rename_i hopen
      rwa [if_pos hopen]
    · rename_i hopen
      rw [if_neg hopen]
      split at h
      · rename_i hclose
        rw [if_pos hclose]
        split at h
        · cases h
        · exact h
      · rename_i hclose
        rw [if_neg hclose]
        split at h
        · cases h
        · exact h

/-- Outside of parentheses, all marks end a word alike. -/
theorem ended?_mark (hr : r.parens = 0) {c d : Char} (hc : State.isWordPart 0 c = false)
    (hd : State.isWordPart 0 d = false) : r.ended? c = r.ended? d := by
  rw [← hr] at hc hd
  rw [ended?, ended?, not_continues hc, not_continues hd]

theorem declared_value {value : List Char} (hvalue : isEnumeratorValue value = true) {d : Char}
    (hd : State.isWordPart 0 d = false) (cs : List Char) :
    declared { inValue := true } (value ++ d :: cs) =
      declared { inValue := true } (value ++ [',']) ++
        declared ((value.foldl next { inValue := true }).begin d) cs := by
  simp only [isEnumeratorValue, Bool.and_eq_true, beq_iff_eq] at hvalue
  have hparens := parens_foldl (r := { inValue := true }) hvalue.2
  have hcomma : State.isWordPart 0 ',' = false := by decide
  rw [declared_append, declared_append, declared, declared, declared, List.append_nil,
    ended?_mark hparens hd hcomma, List.append_assoc,
    next_of_not_continues (not_continues (by rw [hparens]; exact hd))]

theorem begin_comma (hr : r.parens = 0) : r.begin ',' = {} := by
  simp [begin, hr]
  decide

/-! ## Enumerators -/

theorem declared_enumerator {e : Enumerator} {cs : List Char} (h : e.Spelled cs) {d : Char}
    (hd : d = ',' ∨ d = '\x7d') :
    ∃ r : EnumeratorReader, r.parens = 0 ∧ ∀ rest, declared {} (cs ++ d :: rest) =
      e.name.text :: (e.leftover ++ declared (r.begin d) rest) := by
  obtain ⟨before, after, hbefore, hafter, rfl⟩ := h
  have hmark : State.isWordPart 0 d = false := by rcases hd with rfl | rfl <;> decide
  have hspace : ∀ {c : Char}, isSpace c = true → begin {} c = {} := begin_space rfl
  -- what stands behind the name
  have hname : ∀ {c : Char} (rest : List Char), State.isWordPart 0 c = false →
      declared {} (e.name.text.toList ++ (after ++ c :: rest)) =
        e.name.text :: declared (begin {} c) rest := by
    intro c rest hc
    cases after with
    | nil => exact declared_name e.name hc rest
    | cons a after =>
      obtain ⟨ha, hrest⟩ := isGap_cons.mp hafter
      rw [List.cons_append, declared_name e.name (isWordPart_of_isSpace ha 0), hspace ha,
        declared_gap rfl hrest, declared, ended?_of_noWord rfl, next_of_not_continues rfl]
      rfl
  have hvalid := e.valid
  unfold Enumerator.valueText Enumerator.leftover
  cases hvalue : e.value with
  | none =>
    refine ⟨{}, rfl, fun rest => ?_⟩
    rw [List.append_assoc, declared_gap rfl hbefore]
    simpa using hname rest hmark
  | some v =>
    have hv : isEnumeratorValue v.toList = true := by rwa [hvalue] at hvalid
    have hequals : begin {} '=' = { inValue := true } := by decide
    refine ⟨v.toList.foldl next { inValue := true }, ?_, fun rest => ?_⟩
    · simp only [isEnumeratorValue, Bool.and_eq_true, beq_iff_eq] at hv
      exact parens_foldl (r := { inValue := true }) hv.2
    · have htext : before ++ (e.name.text.toList ++ (after ++ '=' :: v.toList)) ++ d :: rest =
          before ++ (e.name.text.toList ++ (after ++ '=' :: (v.toList ++ d :: rest))) := by
        simp
      rw [htext, declared_gap rfl hbefore, hname _ (by decide), hequals, declared_value hv hmark]

/-- The words of a body that are declared: the names of its enumerators, and what is left over of
their values. -/
theorem declared_enumerators {es : List Enumerator} {cs : List Char} (h : EnumeratorText es cs) :
    declared {} (cs ++ ['\x7d']) = es.flatMap fun e => e.name.text :: e.leftover := by
  induction h with
  | none hgap =>
    rw [declared_gap rfl hgap]
    rfl
  | last he =>
    obtain ⟨r, -, hread⟩ := declared_enumerator he (.inr rfl)
    rw [hread]
    simp [declared]
  | cons he _ ih =>
    obtain ⟨r, hparens, hread⟩ := declared_enumerator he (.inl rfl)
    rw [List.append_assoc, List.cons_append, hread, begin_comma hparens, ih]
    simp

/-- Without commas, a value is passed over. -/
theorem declared_inValue {cs : List Char} (hcs : ',' ∉ cs) (hr : r.inValue = true) :
    declared r cs = [] ∧ (cs.foldl next r).inValue = true := by
  induction cs generalizing r with
  | nil => exact ⟨rfl, hr⟩
  | cons c cs ih =>
    simp only [List.mem_cons, not_or] at hcs
    have hnext : (r.next c).inValue = true := by
      unfold next
      split
      · exact hr
      · simp [begin, hr, Ne.symm hcs.1]
    have hended : r.ended? c = none := by simp [ended?, hr]
    obtain ⟨hrest, hlast⟩ := ih hcs.2 hnext
    exact ⟨by rw [declared, hended, hrest]; rfl, hlast⟩

end EnumeratorReader

/-- Nothing is left over of a value without commas. -/
theorem Enumerator.leftover_eq_nil {e : Enumerator} (h : ∀ v ∈ e.value, ',' ∉ v.toList) :
    e.leftover = [] := by
  unfold leftover
  cases hvalue : e.value with
  | none => rfl
  | some v =>
    obtain ⟨hnone, hlast⟩ :=
      EnumeratorReader.declared_inValue (r := { inValue := true }) (h v hvalue) rfl
    have hended : (v.toList.foldl EnumeratorReader.next { inValue := true }).ended? ',' = none := by
      simp [EnumeratorReader.ended?, hlast]
    dsimp only
    rw [EnumeratorReader.declared_append, hnone, EnumeratorReader.declared, hended]
    rfl

end HeaderDocs.Scan
