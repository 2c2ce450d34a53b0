import HeaderDocs.Proofs.Text.Occurrence
import HeaderDocs.Proofs.Text.Trim
import HeaderDocs.Site.Directive

/-!
# The options of a directive, line by line

The options of a directive are to be read one line at a time: a line with a value sets the option, a
line without one does nothing. What is read goes from one option to the next instead, and white space
before a value may hold line ends, so that an option without a value takes the next line for it.

* `bodyLength_spec`: the lines that belong to a directive.
* `optionsFrom_linesText`: the options that are read in them.
* `optionsAsRead_eq_iff`: they are those of the lines exactly if every line has a value, except for a
  last one with nothing at all after its name.
* `options_directiveAt?`: the same of any directive in a page.
-/
namespace HeaderDocs.Site.Directive

open HeaderDocs.Text

structure OptionLine where
  /-- What stands before the option, and that is more than before the directive. -/
  blanks : List Char
  name : List Char
  value : List Char
  blanks_ne : blanks ≠ []
  isBlank_blanks : ∀ c ∈ blanks, isBlank c = true
  name_ne : name ≠ []
  isWordChar_name : ∀ c ∈ name, isWordChar c = true
  oneLine : '\n' ∉ value

namespace OptionLine

def setting (l : OptionLine) : List Char := ':' :: l.name ++ ':' :: l.value

def text (l : OptionLine) : List Char := l.blanks ++ l.setting ++ ['\n']

def isFilled (l : OptionLine) : Bool := l.value.any (!isSpace ·)

def option (l : OptionLine) : String × String := (String.ofList l.name, String.ofList (trim l.value))

/-- The option with the setting on the next line for a value. -/
def swallow (l next : OptionLine) : String × String :=
  (String.ofList l.name, String.ofList (trim next.setting))

end OptionLine

def linesText (lines : List OptionLine) : List Char := lines.flatMap OptionLine.text

def optionsByLine (lines : List OptionLine) : List (String × String) :=
  (lines.filter (·.isFilled)).map (·.option)

/-- The value that the lines set an option to: that of the last line for it with a value. -/
def valueByLine? (lines : List OptionLine) (name : String) : Option String :=
  (lines.reverse.find? fun l => l.isFilled && l.option.1 == name).map (·.option.2)

/-- The options that are read. Without a value the option takes the next line for it, and on the last
line the white space after its name. -/
def optionsAsRead : List OptionLine → List (String × String)
  | [] => []
  | [l] => if l.value.isEmpty then [] else [l.option]
  | l :: next :: lines =>
    if l.isFilled then l.option :: optionsAsRead (next :: lines)
    else l.swallow next :: optionsAsRead lines

/-- Every line has a value, except that the last one may have nothing at all after its name. -/
def EachFilled : List OptionLine → Prop
  | [] => True
  | [l] => l.isFilled = true ∨ l.value = []
  | l :: next :: lines => l.isFilled = true ∧ EachFilled (next :: lines)

/-! ## When the two readings agree -/

theorem OptionLine.isSpace_value {l : OptionLine} (h : l.isFilled = false) :
    ∀ c ∈ l.value, isSpace c = true := by
  intro c hc
  simpa using List.any_eq_false.mp h c hc

/-- The value of an option that has taken the next line is not the one on that line: it has the two
colons as well. -/
theorem OptionLine.swallow_ne (l next : OptionLine) : l.swallow next ≠ next.option := by
  intro h
  have hvalue : trim next.setting = trim next.value := String.ofList_inj.mp (congrArg Prod.snd h)
  have hcount := congrArg (List.count ':') hvalue
  rw [count_trim (by decide), count_trim (by decide), OptionLine.setting, List.cons_append,
    List.count_cons_self, List.count_append, List.count_cons_self] at hcount
  omega

theorem optionsByLine_cons_filled {l : OptionLine} (h : l.isFilled = true)
    (lines : List OptionLine) : optionsByLine (l :: lines) = l.option :: optionsByLine lines := by
  rw [optionsByLine, List.filter_cons_of_pos h]
  rfl

theorem optionsByLine_cons_blank {l : OptionLine} (h : l.isFilled = false)
    (lines : List OptionLine) : optionsByLine (l :: lines) = optionsByLine lines := by
  rw [optionsByLine, List.filter_cons_of_neg (by rw [h]; decide)]
  rfl

/-- No fewer options are read than there are lines with a value: a line without one that takes such a
line is an option instead of it. -/
theorem length_optionsByLine_le (lines : List OptionLine) :
    (optionsByLine lines).length ≤ (optionsAsRead lines).length := by
  induction lines using optionsAsRead.induct with
  | case1 => exact Nat.le_refl _
  | case2 l hempty =>
    rw [optionsByLine_cons_blank (by rw [OptionLine.isFilled, List.isEmpty_iff.mp hempty]; rfl)]
    exact Nat.zero_le _
  | case3 l hempty =>
    rw [optionsAsRead, if_neg hempty, optionsByLine, List.length_map]
    exact List.length_filter_le ..
  | case4 l next lines hfilled ih =>
    rw [optionsByLine_cons_filled hfilled, optionsAsRead, if_pos hfilled]
    exact Nat.succ_le_succ ih
  | case5 l next lines hblank ih =>
    rw [optionsByLine_cons_blank (Bool.eq_false_iff.mpr hblank), optionsAsRead, if_neg hblank]
    cases hnext : next.isFilled with
    | true =>
      rw [optionsByLine_cons_filled hnext]
      exact Nat.succ_le_succ ih
    | false =>
      rw [optionsByLine_cons_blank hnext]
      exact Nat.le_succ_of_le ih

/-- What is read is what the lines say exactly if no line but the last lacks a value. -/
theorem optionsAsRead_eq_iff (lines : List OptionLine) :
    optionsAsRead lines = optionsByLine lines ↔ EachFilled lines := by
  induction lines using optionsAsRead.induct with
  | case1 => exact iff_of_true rfl trivial
  | case2 l hempty =>
    have hnone := List.isEmpty_iff.mp hempty
    rw [optionsAsRead, if_pos hempty,
      optionsByLine_cons_blank (by rw [OptionLine.isFilled, hnone]; rfl)]
    exact iff_of_true rfl (.inr hnone)
  | case3 l hempty =>
    rw [optionsAsRead, if_neg hempty, EachFilled]
    cases hfilled : l.isFilled with
    | true =>
      rw [optionsByLine_cons_filled hfilled]
      exact iff_of_true rfl (.inl rfl)
    | false =>
      rw [optionsByLine_cons_blank hfilled]
      exact iff_of_false nofun fun h => hempty (List.isEmpty_iff.mpr (h.resolve_left nofun))
  | case4 l next lines hfilled ih =>
    rw [optionsByLine_cons_filled hfilled, optionsAsRead, if_pos hfilled, List.cons_inj_right, ih,
      EachFilled, hfilled]
    exact (and_iff_right rfl).symm
  | case5 l next lines hblank _ =>
    rw [optionsByLine_cons_blank (Bool.eq_false_iff.mpr hblank), optionsAsRead, if_neg hblank,
      EachFilled]
    refine iff_of_false (fun h => ?_) fun h => hblank h.1
    cases hnext : next.isFilled with
    | true =>
      rw [optionsByLine_cons_filled hnext] at h
      exact l.swallow_ne next (List.cons.inj h).1
    | false =>
      rw [optionsByLine_cons_blank hnext] at h
      have hle := length_optionsByLine_le lines
      rw [← h, List.length_cons] at hle
      omega

/-- With options that are read line by line, the last line with a value holds. -/
theorem option?_of_optionsByLine {d : Directive} {lines : List OptionLine}
    (h : d.options = optionsByLine lines) (name : String) :
    d.option? name = valueByLine? lines name := by
  rw [option?, h, optionsByLine, ← List.map_reverse, ← List.filter_reverse, List.find?_map,
    List.find?_filter, Option.map_map]
  simp only [Bool.decide_and, Bool.decide_eq_true]
  rfl

/-! ## Lines that belong to a directive -/

/-- A line that stands below a directive: it has more blanks before it. -/
structure OptionLine.IsBelow (indent : List Char) (l : OptionLine) : Prop where
  isPrefix : indent <+: l.blanks
  ne : l.blanks ≠ indent

theorem OptionLine.text_ne_nil (l : OptionLine) : l.text ≠ [] :=
  List.append_ne_nil_of_right_ne_nil _ (List.cons_ne_nil _ _)

theorem linesText_cons (l : OptionLine) (lines : List OptionLine) :
    linesText (l :: lines) = l.text ++ linesText lines := List.flatMap_cons

theorem eq_of_drop_takeWhile {p : Char → Bool} {cs start rest : List Char}
    (h : start ++ rest = cs.drop (cs.takeWhile p).length) :
    cs = cs.takeWhile p ++ (start ++ rest) := by
  rw [h, List.prefix_iff_eq_append.mp (List.takeWhile_prefix p)]

theorem optionLine?_eq_some {indent cs : List Char} {n : Nat}
    (hindent : ∀ c ∈ indent, isBlank c = true) (h : optionLine? indent cs = some n) :
    ∃ (l : OptionLine) (rest : List Char), cs = l.text ++ rest ∧ n = l.text.length ∧
      l.IsBelow indent := by
  simp only [optionLine?, Option.bind_eq_bind, Option.bind_eq_some_iff, List.isEmpty_iff,
    Option.ite_none_left_eq_some, List.isPrefixOf?_eq_some_iff_append_eq, Prod.exists] at h
  obtain ⟨rest, rfl, hblanks, named, hcolon, hname, valued, hvalue, value, after, hline, hn⟩ := h
  have hrest := eq_of_drop_takeWhile hcolon
  have hnamed := eq_of_drop_takeWhile hvalue
  have hvalued := eq_of_breakOn? hline
  have hblank : ∀ c ∈ indent ++ rest.takeWhile isBlank, isBlank c = true := fun c hc =>
    (List.mem_append.mp hc).elim (hindent c) List.mem_takeWhile_imp
  let l : OptionLine :=
    { blanks := indent ++ rest.takeWhile isBlank
      name := named.takeWhile isWordChar
      value
      blanks_ne := List.append_ne_nil_of_right_ne_nil _ hblanks
      isBlank_blanks := hblank
      name_ne := hname
      isWordChar_name := fun _ => List.mem_takeWhile_imp
      oneLine := not_mem_of_breakOn? hline }
  have htext : l.text = indent ++ rest.takeWhile isBlank ++
      (':' :: named.takeWhile isWordChar ++ ':' :: value) ++ ['\n'] := rfl
  refine ⟨l, after, ?_, ?_, List.prefix_append .., fun he => hblanks ?_⟩
  · conv_lhs => rw [hrest, hnamed, hvalued]
    rw [htext]
    simp
  · rw [← Option.some.inj hn, htext]
    simp
    omega
  · exact List.append_right_eq_self.mp he

theorem bodyLength_skip (indent cs rest : List Char) :
    bodyLength indent cs.length (cs ++ rest) = cs.length + bodyLength indent 0 rest := by
  induction cs with
  | nil => exact (Nat.zero_add _).symm
  | cons c cs ih =>
    rw [List.length_cons, List.cons_append, bodyLength, ih]
    omega

/-- The lines that belong to a directive stand at the front of the text below it, and no other line
for an option comes next. -/
theorem bodyLength_spec {indent : List Char} (hindent : ∀ c ∈ indent, isBlank c = true)
    (cs : List Char) :
    ∃ (lines : List OptionLine) (rest : List Char), cs = linesText lines ++ rest ∧
      bodyLength indent 0 cs = (linesText lines).length ∧ (∀ l ∈ lines, l.IsBelow indent) ∧
      optionLine? indent rest = none := by
  induction hn : cs.length using Nat.strongRecOn generalizing cs with
  | ind n ih =>
    cases hline : optionLine? indent cs with
    | none =>
      refine ⟨[], cs, rfl, ?_, nofun, hline⟩
      cases cs with
      | nil => rfl
      | cons c cs => rw [bodyLength, hline]; rfl
    | some length =>
      obtain ⟨l, rest, rfl, rfl, hbelow⟩ := optionLine?_eq_some hindent hline
      have hpos : 0 < l.text.length := List.length_pos_iff.mpr l.text_ne_nil
      obtain ⟨lines, rest, rfl, hlength, hlines, hstop⟩ :=
        ih rest.length (by rw [← hn, List.length_append]; omega) rest rfl
      refine ⟨l :: lines, rest, ?_, ?_, List.forall_mem_cons.mpr ⟨hbelow, hlines⟩, hstop⟩
      · rw [linesText_cons, List.append_assoc]
      · rw [linesText_cons, List.length_append, ← hlength]
        obtain ⟨c, cs, hcons⟩ := List.exists_cons_of_ne_nil l.text_ne_nil
        rw [hcons, List.cons_append] at hline ⊢
        rw [bodyLength, hline]
        dsimp only
        rw [List.length_cons, Nat.add_sub_cancel, bodyLength_skip]
        omega

/-! ## Options that are read -/

theorem isSpace_of_isBlank {c : Char} (h : isBlank c = true) : isSpace c = true := by
  rw [isBlank, Bool.or_eq_true, beq_iff_eq, beq_iff_eq] at h
  rcases h with rfl | rfl <;> decide

theorem OptionLine.isSpace_blanks (l : OptionLine) : ∀ c ∈ l.blanks, isSpace c = true :=
  fun c hc => isSpace_of_isBlank (l.isBlank_blanks c hc)

/-- Whatever follows its name, an option is read with the value that is found there. -/
theorem optionAt?_line (l : OptionLine) (rest : List Char) :
    optionAt? (l.blanks ++ ':' :: (l.name ++ ':' :: rest)) =
      (optionValue? rest).map fun (value, length) =>
        ((String.ofList l.name, String.ofList value),
          l.blanks.length + l.name.length + 2 + length) := by
  have hcolon : ∀ cs : List Char, [':'].isPrefixOf? (':' :: cs) = some cs := fun cs =>
    List.isPrefixOf?_eq_some_iff_append_eq.mpr rfl
  rw [optionAt?, takeWhile_append_cons l.isSpace_blanks (by decide)]
  simp only [Option.bind_eq_bind, List.isEmpty_iff, l.blanks_ne, if_false, List.drop_left, hcolon,
    Option.bind_some, takeWhile_append_cons l.isWordChar_name (by decide : isWordChar ':' = false),
    l.name_ne]
  cases optionValue? rest <;> rfl

/-- A value is what starts after white space, to the end of its line. -/
theorem optionValue?_space {space cs : List Char} {c : Char}
    (hspace : ∀ d ∈ space, isSpace d = true) (hc : isSpace c = false) (hline : '\n' ∉ c :: cs)
    (rest : List Char) :
    optionValue? (space ++ (c :: cs ++ '\n' :: rest)) =
      some (trim (c :: cs), (space ++ c :: cs).length) := by
  have hne : ∀ d ∈ c :: cs, (d != '\n') = true := fun d hd =>
    bne_iff_ne.mpr fun he : d = '\n' => hline (he ▸ hd)
  have hvalue := takeWhile_append_cons (d := '\n') hne rfl rest
  have hlt : space.length < (space ++ (c :: cs ++ '\n' :: rest)).length := by
    simp only [List.length_append, List.length_cons]
    omega
  rw [List.cons_append] at hvalue hlt
  rw [optionValue?, List.cons_append, takeWhile_append_cons hspace hc]
  dsimp only
  rw [if_pos hlt, Option.map_some, List.drop_left, hvalue, List.length_append]

/-- White space up to the end of the last line is an empty value, if there is any. -/
theorem optionValue?_blank {space : List Char} (hspace : ∀ c ∈ space, isSpace c = true)
    (hline : '\n' ∉ space) :
    optionValue? (space ++ ['\n']) =
      if space.isEmpty then none else some ([], space.length) := by
  have hall : (space ++ ['\n']).takeWhile isSpace = space ++ ['\n'] :=
    List.takeWhile_eq_self_iff.mpr fun c hc =>
      (List.mem_append.mp hc).elim (hspace c) fun hc => by rw [List.mem_singleton.mp hc]; decide
  rw [optionValue?, hall]
  dsimp only
  rw [if_neg (Nat.lt_irrefl _)]
  rcases List.eq_nil_or_concat' space with rfl | ⟨init, c, rfl⟩
  · rfl
  have hc : c ≠ '\n' := fun he => hline (by simp [he])
  have hspacec : trim [c] = [] := trim_eq_nil fun d hd => by
    rw [List.mem_singleton.mp hd]
    exact hspace c (by simp)
  simp [hc, hspacec]

theorem optionsFrom_skip (lineStart : Bool) (cs rest : List Char) :
    optionsFrom lineStart cs.length (cs ++ rest) =
      optionsFrom (cs.getLast?.elim lineStart (· == '\n')) 0 rest := by
  induction cs generalizing lineStart with
  | nil => rfl
  | cons c cs ih =>
    rw [List.length_cons, List.cons_append, optionsFrom, ih, List.getLast?_cons]
    cases cs.getLast? <;> rfl

/-- An option that takes the text up to a line end. -/
theorem optionsFrom_matched {option : String × String} {cs rest : List Char}
    (h : optionAt? (cs ++ '\n' :: rest) = some (option, cs.length))
    (hlast : ∃ c ∈ cs.getLast?, c ≠ '\n') :
    optionsFrom true 0 (cs ++ '\n' :: rest) = option :: optionsFrom true 0 rest := by
  obtain ⟨last, hlast, hne⟩ := hlast
  cases cs with
  | nil => cases hlast
  | cons c cs =>
    have hend : cs.getLast?.elim (c == '\n') (· == '\n') = false := by
      rw [List.getLast?_cons, Option.mem_some_iff] at hlast
      subst hlast
      cases hcs : cs.getLast? <;> simpa [hcs] using hne
    rw [List.cons_append] at h ⊢
    rw [optionsFrom, if_pos rfl, h]
    dsimp only
    rw [List.length_cons, Nat.add_sub_cancel, optionsFrom_skip, hend, optionsFrom,
      if_neg Bool.false_ne_true]
    rfl

theorem optionsFrom_unmatched {cs : List Char} (hne : cs ≠ []) (hline : '\n' ∉ cs)
    (rest : List Char) (h : optionAt? (cs ++ '\n' :: rest) = none) :
    optionsFrom true 0 (cs ++ '\n' :: rest) = optionsFrom true 0 rest := by
  have hpassed : ∀ cs : List Char, '\n' ∉ cs →
      optionsFrom false 0 (cs ++ '\n' :: rest) = optionsFrom true 0 rest := by
    intro cs
    induction cs with
    | nil => exact fun _ => rfl
    | cons c cs ih =>
      intro hline
      rw [List.mem_cons, not_or] at hline
      rw [List.cons_append, optionsFrom, if_neg Bool.false_ne_true, beq_false_of_ne (Ne.symm hline.1)]
      exact ih hline.2
  obtain ⟨c, cs, rfl⟩ := List.exists_cons_of_ne_nil hne
  rw [List.mem_cons, not_or] at hline
  rw [List.cons_append] at h ⊢
  rw [optionsFrom, if_pos rfl, h, beq_false_of_ne (Ne.symm hline.1)]
  exact hpassed cs hline.2

theorem OptionLine.newline_not_mem (l : OptionLine) : '\n' ∉ l.blanks ∧ '\n' ∉ l.setting := by
  refine ⟨fun h => absurd (l.isBlank_blanks _ h) (by decide), fun h => ?_⟩
  rw [setting, List.cons_append, List.mem_cons, List.mem_append, List.mem_cons] at h
  obtain h | h | h | h := h
  · cases h
  · exact absurd (l.isWordChar_name _ h) (by decide)
  · cases h
  · exact l.oneLine h

/-- The option of a line with what is found for its value, up to a line end. -/
theorem optionsFrom_line (l : OptionLine) {value v rest : List Char}
    (h : optionValue? (value ++ '\n' :: rest) = some (v, value.length))
    (hlast : ∃ c ∈ value.getLast?, c ≠ '\n') :
    optionsFrom true 0 (l.blanks ++ ':' :: (l.name ++ ':' :: (value ++ '\n' :: rest))) =
      (String.ofList l.name, String.ofList v) :: optionsFrom true 0 rest := by
  have hassoc : ∀ cs : List Char, l.blanks ++ ':' :: (l.name ++ ':' :: (value ++ cs)) =
      l.blanks ++ ':' :: (l.name ++ ':' :: value) ++ cs := fun cs => by simp
  rw [hassoc]
  refine optionsFrom_matched ?_ ?_
  · rw [← hassoc, optionAt?_line, h, Option.map_some]
    simp
    omega
  · obtain ⟨c, hc, hne⟩ := hlast
    exact ⟨c, by simp [List.getLast?_append, List.getLast?_cons, Option.mem_def.mp hc], hne⟩

/-- The option of a line with the first thing for its value that is not white space, on this line or
on a later one. -/
theorem optionsFrom_space (l : OptionLine) {space cs : List Char} {c : Char}
    (hspace : ∀ d ∈ space, isSpace d = true) (hc : isSpace c = false) (hline : '\n' ∉ c :: cs)
    (rest : List Char) :
    optionsFrom true 0 (l.blanks ++ ':' :: (l.name ++ ':' :: (space ++ c :: cs ++ '\n' :: rest))) =
      (String.ofList l.name, String.ofList (trim (c :: cs))) :: optionsFrom true 0 rest := by
  refine optionsFrom_line l ?_ ⟨(c :: cs).getLast (List.cons_ne_nil _ _), ?_, fun he => ?_⟩
  · rw [List.append_assoc, optionValue?_space hspace hc hline]
  · simp [List.getLast?_eq_some_getLast]
  · exact hline (he ▸ List.getLast_mem _)

theorem OptionLine.text_append (l : OptionLine) (rest : List Char) :
    l.text ++ rest = l.blanks ++ ':' :: (l.name ++ ':' :: (l.value ++ '\n' :: rest)) := by
  simp [text, setting]

theorem optionsFrom_filled {l : OptionLine} (h : l.isFilled = true) (rest : List Char) :
    optionsFrom true 0 (l.text ++ rest) = l.option :: optionsFrom true 0 rest := by
  obtain ⟨c, hfind⟩ := Option.isSome_iff_exists.mp (List.find?_isSome.mpr (List.any_eq_true.mp h))
  obtain ⟨hc, space, cs, hvalue, hspace⟩ := List.find?_eq_some_iff_append.mp hfind
  have hspace : ∀ d ∈ space, isSpace d = true := fun d hd => by simpa using hspace d hd
  have hline : '\n' ∉ c :: cs := fun hm => l.oneLine (by rw [hvalue]; exact List.mem_append_right _ hm)
  rw [l.text_append, hvalue, optionsFrom_space l hspace (by simpa using hc) hline,
    OptionLine.option, hvalue, trim_append hspace]

theorem optionsFrom_linesText (lines : List OptionLine) :
    optionsFrom true 0 (linesText lines) = optionsAsRead lines := by
  induction lines using optionsAsRead.induct with
  | case1 => rfl
  | case2 l hempty =>
    have hvalue := List.isEmpty_iff.mp hempty
    have hline : '\n' ∉ l.blanks ++ ':' :: (l.name ++ [':']) := by
      have hmem := l.newline_not_mem
      simpa [OptionLine.setting, hvalue] using hmem
    have htext : linesText [l] = l.blanks ++ ':' :: (l.name ++ [':']) ++ ['\n'] := by
      simp [linesText, OptionLine.text, OptionLine.setting, hvalue]
    rw [htext, optionsFrom_unmatched (List.append_ne_nil_of_right_ne_nil _ (List.cons_ne_nil _ _))
      hline, optionsAsRead, if_pos hempty, optionsFrom]
    have hat := optionAt?_line l ['\n']
    rw [show optionValue? ['\n'] = none from rfl, Option.map_none] at hat
    simpa using hat
  | case3 l hempty =>
    rw [optionsAsRead, if_neg hempty]
    cases h : l.isFilled with
    | true => exact optionsFrom_filled h []
    | false =>
      have hspace := OptionLine.isSpace_value h
      have hread := optionValue?_blank hspace l.oneLine
      rw [if_neg hempty] at hread
      have hlast : ∃ c ∈ l.value.getLast?, c ≠ '\n' := by
        have hne : l.value ≠ [] := fun he => hempty (List.isEmpty_iff.mpr he)
        exact ⟨_, List.getLast?_eq_some_getLast hne, fun he => l.oneLine (he ▸ List.getLast_mem hne)⟩
      rw [linesText_cons, l.text_append, OptionLine.option, trim_eq_nil hspace]
      exact optionsFrom_line l hread hlast
  | case4 l next lines h ih =>
    rw [linesText_cons, optionsFrom_filled h, ih, optionsAsRead, if_pos h]
  | case5 l next lines h ih =>
    have hspace : ∀ c ∈ l.value ++ '\n' :: next.blanks, isSpace c = true := fun c hc => by
      rcases List.mem_append.mp hc with hc | hc
      · exact OptionLine.isSpace_value (Bool.eq_false_iff.mpr h) c hc
      · exact (List.mem_cons.mp hc).elim (fun he => he ▸ by decide) (next.isSpace_blanks c)
    have hread := optionsFrom_space l hspace (by decide) next.newline_not_mem.2 (linesText lines)
    rw [optionsAsRead, if_neg h, ← ih]
    refine Eq.trans (congrArg (optionsFrom true 0) ?_) hread
    simp [linesText, OptionLine.text, OptionLine.setting]

/-! ## Directives in a page -/

/-- The line of a directive, with the blank lines that may follow it. -/
def IsHeading (indent : List Char) (word : String) (heading : List Char) : Prop :=
  ∃ blanks space, heading = indent ++ ":::".toList ++ blanks ++ "apitree:".toList ++ word.toList ++
      space ++ ['\n'] ∧
    (∀ c ∈ indent ++ blanks, isBlank c = true) ∧ blanks ≠ [] ∧ ∀ c ∈ space, isSpace c = true

theorem directiveAt?_eq_some {cs : List Char} {d : Directive} {n : Nat}
    (h : directiveAt? cs = some (d, n)) :
    ∃ indent heading below, IsHeading indent d.word heading ∧ cs = heading ++ below ∧
      (d.word, d.kind) ∈ kinds ∧ n = heading.length + bodyLength indent 0 below ∧
      d.options = optionsFrom true 0 (below.take (bodyLength indent 0 below)) := by
  simp only [directiveAt?, Option.bind_eq_bind, Option.bind_eq_some_iff, List.isEmpty_iff,
    Option.ite_none_left_eq_some, List.isPrefixOf?_eq_some_iff_append_eq, Prod.exists] at h
  obtain ⟨marked, hmarked, hblanks, named, hnamed, word, kind, hfind, hspace, hd⟩ := h
  have hword := List.find?_some hfind
  dsimp only at hword
  obtain ⟨rest, rfl⟩ := List.isPrefixOf_iff_prefix.mp hword
  have hdrop : ∀ cs : List Char, (cs.reverse.dropWhile (· != '\n')).reverse =
      dropEndWhile (· != '\n') cs := fun _ => rfl
  rw [← String.length_toList, List.drop_left, hdrop] at hd hspace
  obtain ⟨below, hbelow⟩ :=
    (dropEndWhile_isPrefix (· != '\n') _).trans (List.takeWhile_prefix (l := rest) isSpace)
  obtain ⟨space, c, hconcat, hc⟩ := dropEndWhile_eq_concat hspace
  have hisSpace : ∀ d ∈ space ++ [c], isSpace d = true := fun d hd =>
    List.mem_takeWhile_imp ((dropEndWhile_isPrefix (· != '\n') _).subset (hconcat ▸ hd))
  have hcs := eq_of_drop_takeWhile hmarked
  have hmarked := eq_of_drop_takeWhile hnamed
  have hdropped : ∀ start : List Char, start ++ below = rest → rest.drop start.length = below := by
    rintro start rfl
    exact List.drop_left
  rw [hdropped _ hbelow, hconcat] at hd
  rw [hconcat] at hbelow
  obtain rfl : c = '\n' := by simpa using hc
  cases Option.some.inj hd
  refine ⟨_, _, below, ⟨marked.takeWhile isBlank, space, rfl, fun c hc => ?_, hblanks, fun c hc =>
    hisSpace c (List.mem_append_left _ hc)⟩, ?_, List.mem_of_find?_eq_some hfind, ?_, rfl⟩
  · exact (List.mem_append.mp hc).elim List.mem_takeWhile_imp List.mem_takeWhile_imp
  · conv_lhs => rw [hcs, hmarked, ← hbelow]
    simp
  · simp
    omega

/-- What a directive at the start of a line reads. Below its line stand the lines with its options; the
options are those of `optionsAsRead`, and they are the options line by line exactly if every line has a
value, except that the last one may have nothing at all after its name. Then the last line with a value
holds for each name. -/
theorem options_directiveAt? {cs : List Char} {d : Directive} {n : Nat}
    (h : directiveAt? cs = some (d, n)) :
    ∃ indent heading lines rest, IsHeading indent d.word heading ∧ (d.word, d.kind) ∈ kinds ∧
      cs = heading ++ linesText lines ++ rest ∧ n = (heading ++ linesText lines).length ∧
      (∀ l ∈ lines, l.IsBelow indent) ∧ optionLine? indent rest = none ∧
      d.options = optionsAsRead lines ∧
      (d.options = optionsByLine lines ↔ EachFilled lines) ∧
      (EachFilled lines → ∀ name, d.option? name = valueByLine? lines name) := by
  obtain ⟨indent, heading, below, hheading, rfl, hkind, rfl, hoptions⟩ := directiveAt?_eq_some h
  have hindent : ∀ c ∈ indent, isBlank c = true := by
    obtain ⟨_, _, -, hblank, -, -⟩ := hheading
    exact fun c hc => hblank c (List.mem_append_left _ hc)
  obtain ⟨lines, rest, rfl, hlength, hlines, hstop⟩ := bodyLength_spec hindent below
  rw [hlength, List.take_left, optionsFrom_linesText] at hoptions
  have hiff : d.options = optionsByLine lines ↔ EachFilled lines := by
    rw [hoptions, optionsAsRead_eq_iff]
  refine ⟨indent, heading, lines, rest, hheading, hkind, ?_, ?_, hlines, hstop, hoptions, hiff,
    fun hfilled => option?_of_optionsByLine (hiff.mpr hfilled)⟩
  · rw [List.append_assoc]
  · rw [hlength, List.length_append]

/-- A directive with two options. -/
theorem options_directiveAt?_twoLines :
    ∃ d n lines,
      directiveAt? "::: apitree:autofunction\n    :group: API\n    :name: f\n".toList = some (d, n) ∧
      d.options = optionsAsRead lines ∧ (d.options = optionsByLine lines ↔ EachFilled lines) := by
  obtain ⟨⟨d, n⟩, h⟩ := Option.isSome_iff_exists.mp (by decide +kernel :
    (directiveAt? "::: apitree:autofunction\n    :group: API\n    :name: f\n".toList).isSome)
  obtain ⟨_, _, lines, _, -, -, -, -, -, -, hread, hiff, -⟩ := options_directiveAt? h
  exact ⟨d, n, lines, h, hread, hiff⟩

/-- Whether an option can be written with the name and the value. -/
def isOption (name value : List Char) : Bool :=
  !name.isEmpty && name.all isWordChar && value.all (· != '\n')

/-- A line with an option behind four blanks. -/
def indented (name value : List Char) (h : isOption name value = true) : OptionLine where
  blanks := List.replicate 4 ' '
  name
  value
  blanks_ne := List.cons_ne_nil _ _
  isBlank_blanks := fun c hc => by
    rw [List.eq_of_mem_replicate hc]
    rfl
  name_ne := by
    rintro rfl
    cases h
  isWordChar_name := by
    simp only [isOption, Bool.and_eq_true] at h
    exact List.all_eq_true.mp h.1.2
  oneLine := fun hm => by
    simp only [isOption, Bool.and_eq_true] at h
    have hne := List.all_eq_true.mp h.2 _ hm
    cases hne

/-- An option without a value takes the next line for it, and with a space after its name the last
one is set to nothing. -/
theorem not_option?_blankLines :
    let group (value : String) (h : isOption "group".toList value.toList = true) : OptionLine :=
      indented "group".toList value.toList h
    let name : OptionLine := indented "name".toList " f".toList rfl
    let read (lines : List OptionLine) :=
      (directiveAt? ("::: apitree:autofunction\n".toList ++ linesText lines)).map fun (d, _) =>
        (d.option? "group", d.option? "name")
    let byLine (lines : List OptionLine) := (valueByLine? lines "group", valueByLine? lines "name")
    let blankFirst := [group "" rfl, name]
    let blankLast := [name, group " " rfl]
    (read blankFirst = some (some ":name: f", none) ∧ byLine blankFirst = (none, some "f")) ∧
      read blankLast = some (some "", some "f") ∧ byLine blankLast = (none, some "f") := by
  decide +kernel

end HeaderDocs.Site.Directive
