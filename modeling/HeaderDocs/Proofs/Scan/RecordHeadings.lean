import HeaderDocs.Proofs.Scan.ParameterLines
import HeaderDocs.Proofs.Scan.RecordBodies

/-!
# Headings of records

What stands in front of the body of a record is collected like the words of any declaration. Behind
the name there may be base types with words for their access, which are words of the heading as long
as no mark ends a declarator in between.

* `State.InHeading`: what the scanner has read behind the name.
* `State.run_recordHeading`: reading a heading and the brace behind it.
-/
namespace HeaderDocs.Scan

open HeaderDocs.Text

/-! ## Headings -/

/-- Whether a character ends no declarator, and begins neither a value, a literal, a comment nor a
directive. -/
def isHeadingChar (c : Char) : Bool :=
  c ∉ ['(', ')', ',', ';', '=', '\x7b', '\x7d', '/', '#', '"', '\'']

/-- What stands in front of the body of a record. -/
structure RecordHeading where
  keyword : RecordKeyword
  name : Option Name := none
  /-- What stands behind the name, if there is one. -/
  bases : List Char := []
  valid : bases.all isHeadingChar = true
  /-- The name ends there, perhaps with a colon that touches it. -/
  apart : ∀ c ∈ bases.head?, State.isWordPart 0 c = false ∨
    c = ':' ∧ ∀ d ∈ bases[1]?, State.isWordPart 0 d = false

/-- How a heading is written, with the brace behind it. -/
inductive RecordHeading.Spelled (h : RecordHeading) : List Char → Prop
  | unnamed {gap : List Char} : h.name = none → IsGap gap →
      Spelled h (h.keyword.name.text.toList ++ (gap ++ ['\x7b']))
  | named {name : Name} {gap : List Char} : h.name = some name → gap ≠ [] → IsGap gap →
      Spelled h (h.keyword.name.text.toList ++ (gap ++ (name.text.toList ++ (h.bases ++ ['\x7b']))))

/-! ## Behind the name -/

theorem not_isWordPart_brace (parens : Nat) : State.isWordPart parens '\x7b' = false := by
  simpa using List.all_eq_true.mp (not_isWordPart_bracket parens) '\x7b' (by decide)

/-- A context in a heading: the run goes on behind its first fragments. -/
def Context.Heads (access : Option String) (first : Run) (c : Context) : Prop :=
  ∃ more claim, c = { access, run := first ++ more, claim }

namespace Context.Heads

variable {access : Option String} {first : Run} {c : Context}

theorem push (h : c.Heads access first) (text : String) (spaced : Bool) :
    Context.Heads access first { c with run := c.run.push text spaced } := by
  obtain ⟨more, claim, rfl⟩ := h
  exact ⟨more ++ [⟨text, spaced⟩], claim, by simp [Run.push]⟩

theorem run_ne_nil (h : c.Heads access first) (hfirst : first ≠ []) : c.run ≠ [] := by
  obtain ⟨more, claim, rfl⟩ := h
  simp [hfirst]

theorem pushWord (h : c.Heads access first) (hfirst : first ≠ []) (word : String) :
    (c.pushWord word).Heads access first := by
  unfold Context.pushWord
  rw [startRun_of_run (h.run_ne_nil hfirst)]
  exact h.push _ _

theorem pushIfStarted (h : c.Heads access first) (hfirst : first ≠ []) (text : String)
    (spaced : Bool) : (c.pushIfStarted text spaced).Heads access first := by
  rw [pushIfStarted_of_run (h.run_ne_nil hfirst)]
  exact h.push _ _

theorem pushFragment (h : c.Heads access first) (hfirst : first ≠ []) (text : String)
    (spaced : Bool) : (c.pushFragment text spaced).Heads access first := by
  unfold Context.pushFragment
  rw [startRun_of_run (h.run_ne_nil hfirst)]
  exact h.pushIfStarted hfirst text spaced

theorem pushMark (h : c.Heads access first) (hfirst : first ≠ []) (mark : String) :
    (c.pushMark mark).Heads access first := by
  have hrun := h.run_ne_nil hfirst
  have hstart : c.startRun = c := startRun_of_run hrun
  rw [pushMark_of_startRun (by rwa [hstart]), hstart]
  exact h.push _ _

theorem gathers (h : c.Heads access first) : c.Gathers := by
  obtain ⟨more, claim, rfl⟩ := h
  exact ⟨rfl, rfl, rfl⟩

end Context.Heads

namespace State

variable {t s : State} {access : Option String} {first : Run} {c : Context} {d : Char}

/-- The scanner in a heading, perhaps in one of its words. -/
def InHeading (t : State) (access : Option String) (first : Run) (s : State) : Prop :=
  ∃ c : Context, c.Heads access first ∧
    (s = t.inContext c ∨ ∃ word, s = (t.inContext c).enter (.word word))

theorem InHeading.inContext (hc : c.Heads access first) : t.InHeading access first (t.inContext c) :=
  ⟨c, hc, .inl rfl⟩

theorem plain_heading (hfirst : first ≠ []) (hc : c.Heads access first)
    (hd : isHeadingChar d = true) : t.InHeading access first ((t.inContext c).plain d) := by
  have hjoinable := hc.gathers.joinable
  simp only [isHeadingChar, List.mem_cons, List.not_mem_nil, or_false, decide_eq_true_eq,
    not_or] at hd
  unfold State.plain
  split
  · obtain ⟨more, claim, rfl⟩ := hc
    exact .inContext ⟨more, none, rfl⟩
  · split
    · exact .inContext hc
    · rw [if_neg (by simp [hd]), inContext_joinable hjoinable]
      unfold State.mark
      split
      case h_11 => exact .inContext (hc.pushMark hfirst _)
      case h_12 => exact .inContext (hc.pushMark hfirst _)
      case h_13 => exact .inContext (hc.pushMark hfirst _)
      case h_14 => exact .inContext (hc.pushFragment hfirst _ _)
      case h_15 => exact .inContext (hc.pushIfStarted hfirst _ _)
      case h_16 =>
        split
        · exact ⟨c, hc, .inr ⟨_, rfl⟩⟩
        · exact .inContext hc
      all_goals simp at hd

theorem word_heading (hfirst : first ≠ []) (hc : c.Heads access first) (word : String)
    (hd : d ∉ ['(', ')', ',', ';']) : ∃ c' : Context, c'.Heads access first ∧
      (t.inContext c).update (·.word word d) = t.inContext c' :=
  ⟨c.pushWord word, hc.pushWord hfirst word,
    congrArg (fun scope => ({ t with mode := .plain, scope } : State))
      (OpenScope.word_gathered (s := { t.scope with context := c }) hc.gathers
        (fun he => absurd he (hc.run_ne_nil hfirst)) hd)⟩

theorem InHeading.step (hfirst : first ≠ []) (h : t.InHeading access first s)
    (hd : isHeadingChar d = true) : t.InHeading access first (s.step d) := by
  obtain ⟨c, hc, rfl | ⟨word, rfl⟩⟩ := h
  · exact plain_heading hfirst hc hd
  · change t.InHeading access first (if isWordPart c.parens d then _ else _)
    split
    · exact ⟨c, hc, .inr ⟨d :: word, rfl⟩⟩
    · obtain ⟨c', hc', hword⟩ := word_heading (t := t) hfirst hc (String.ofList word.reverse)
        (notMem_of_class (by decide) hd)
      change t.InHeading access first (((t.inContext c).update (·.word _ d)).plain d)
      rw [hword]
      exact plain_heading hfirst hc' hd

theorem InHeading.run (hfirst : first ≠ []) (h : t.InHeading access first s) {cs : List Char}
    (hcs : cs.all isHeadingChar = true) : t.InHeading access first (s.run cs) := by
  induction cs generalizing s with
  | nil => exact h
  | cons d cs ih =>
    rw [List.all_cons, Bool.and_eq_true] at hcs
    exact ih (h.step hfirst hcs.1) hcs.2

theorem InHeading.step_brace (hfirst : first ≠ []) (h : t.InHeading access first s) :
    ∃ c : Context, c.Heads access first ∧ s.step '\x7b' = (t.inContext c).openBrace := by
  obtain ⟨c, hc, rfl | ⟨word, rfl⟩⟩ := h
  · exact ⟨c, hc, step_openBrace hc.gathers.joinable⟩
  · obtain ⟨c', hc', hword⟩ := word_heading (t := t) hfirst hc (String.ofList word.reverse)
      (by decide : '\x7b' ∉ ['(', ')', ',', ';'])
    have hend : ((t.inContext c).enter (.word word)).step '\x7b' =
        ((t.inContext c).update (·.word (String.ofList word.reverse) '\x7b')).plain '\x7b' := by
      unfold State.step enter
      exact if_neg (by simp [not_isWordPart_brace])
    refine ⟨c', hc', ?_⟩
    rw [hend, hword]
    exact step_openBrace hc'.gathers.joinable

/-! ## The keyword and the name -/

theorem run_nameColon (hc : c.joinable = false) (name : Name) (hd : isWordPart c.parens d = false)
    (rest : List Char) : (t.inContext c).run (name.text.toList ++ ':' :: d :: rest) =
      ((t.inContext c).update (·.word (name.text ++ ":") d)).run (d :: rest) := by
  obtain ⟨hne, hchars⟩ := name.chars
  obtain ⟨first, chars, hfirst⟩ := List.exists_cons_of_ne_nil hne
  rw [hfirst] at hchars
  have hword : (name.text ++ ":").toList = first :: (chars ++ [':']) := by simp [hfirst]
  have hparts : ∀ e ∈ chars ++ [':'], isWordPart c.parens e = true := by
    intro e he
    rw [List.mem_append, List.mem_singleton] at he
    rcases he with he | rfl
    · exact (isWordPart_of_isWordChar (hchars e (List.mem_cons_of_mem _ he)) _).2
    · simp [isWordPart]
  have hread := run_wordFrom (t := t) hc hword
    (isWordPart_of_isWordChar (hchars first List.mem_cons_self) 0).1 hparts hd rest
  rw [String.toList_append, List.append_assoc] at hread
  exact hread

theorem run_headingName (hc : c.Gathers) (hparens : c.parens = 0) (hrun : c.run ≠ [])
    (h : RecordHeading) (name : Name) (rest : List Char) :
    ∃ token bases, withoutColons token = name.text ∧ bases.all isHeadingChar = true ∧
      (t.inContext c).run (name.text.toList ++ (h.bases ++ '\x7b' :: rest)) =
        (t.inContext { c with run := c.run.pushWord token }).run (bases ++ '\x7b' :: rest) := by
  have hbrace : isWordPart c.parens '\x7b' = false := not_isWordPart_brace _
  have hvalid := h.valid
  have happart := h.apart
  generalize h.bases = bases at hvalid happart
  -- the name ends where no word goes on, unless a colon touches it
  have hends : ∀ {bases : List Char} {d : Char} {cs : List Char}, bases.all isHeadingChar = true →
      bases ++ '\x7b' :: rest = d :: cs → isWordPart c.parens d = false →
      d ∉ ['(', ')', ',', ';'] → ∃ token bases', withoutColons token = name.text ∧
        bases'.all isHeadingChar = true ∧
        (t.inContext c).run (name.text.toList ++ (bases ++ '\x7b' :: rest)) =
          (t.inContext { c with run := c.run.pushWord token }).run (bases' ++ '\x7b' :: rest) := by
    intro bases d cs hbases htext hpart hmark
    refine ⟨name.text, bases, name.withoutColons_text, hbases, ?_⟩
    rw [htext]
    exact run_word_gathered hc name.toWord (fun he => absurd he hrun) hpart hmark cs
  cases bases with
  | nil => exact hends hvalid rfl hbrace (by decide)
  | cons d bases =>
    rw [List.all_cons, Bool.and_eq_true] at hvalid
    have hmark : d ∉ ['(', ')', ',', ';'] := notMem_of_class (by decide) hvalid.1
    obtain hpart | ⟨rfl, hnext⟩ := happart d rfl
    · exact hends (by rw [List.all_cons, hvalid.1, hvalid.2]; rfl) rfl (hparens ▸ hpart) hmark
    · refine ⟨name.text ++ ":", bases, name.withoutColons_concat, hvalid.2, ?_⟩
      obtain ⟨e, cs, htext, hpart, hother⟩ : ∃ e cs, bases ++ '\x7b' :: rest = e :: cs ∧
          isWordPart c.parens e = false ∧ e ∉ ['(', ')', ',', ';'] := by
        cases bases with
        | nil => exact ⟨'\x7b', rest, rfl, hbrace, by decide⟩
        | cons e bases =>
          rw [List.all_cons, Bool.and_eq_true] at hvalid
          exact ⟨e, bases ++ '\x7b' :: rest, rfl, hparens ▸ hnext e rfl,
            notMem_of_class (by decide) hvalid.2.1⟩
      have hword := run_nameColon (t := t) hc.joinable name hpart cs
      have hpush : (t.inContext c).update (·.word (name.text ++ ":") e) =
          t.inContext { c with run := c.run.pushWord (name.text ++ ":") } := by
        refine congrArg (fun scope => ({ t with mode := .plain, scope } : State)) ?_
        refine (OpenScope.word_gathered (s := { t.scope with context := c }) hc
          (fun he => absurd he hrun) hother).trans ?_
        simp only [OpenScope.update, Context.pushWord, Context.startRun_of_base hc.base]
      rw [hpush, ← htext] at hword
      exact hword

theorem run_recordKeyword (k : RecordKeyword) (access : Option String) (joinable : Bool)
    (claim : Option (List Claim)) (hpart : isWordPart 0 d = false) (hmark : d ∉ ['(', ')', ',', ';'])
    (rest : List Char) :
    (t.inContext { access, joinable, claim }).run (k.name.text.toList ++ d :: rest) =
      (t.inContext { access, run := Run.pushWord [] k.name.text, claim }).run (d :: rest) := by
  rw [run_name_joinable (t := t) (c := { access, claim }) joinable k.name]
  refine run_word_gathered (t := t) (c := { access, claim }) ⟨rfl, rfl, rfl⟩ k.name.toWord
    (fun _ _ => ?_) hpart hmark rest
  exact (congrArg isAccess k.name.withoutColons_text).trans k.isAccess_name

/-- A brace behind a run that begins with the keyword opens a record. -/
theorem openBrace_heading {k : RecordKeyword} {run : Run} (hhead : run.texts.head? = some k.name.text)
    (access : Option String) (claim : Option (List Claim)) :
    (t.inContext { access, run, claim }).openBrace =
      (t.inContext { access, run, claim }).openRecord k.kind false run := by
  refine openBrace_record rfl ?_ hhead
  change splitAlias run = (false, run)
  rw [splitAlias, hhead, if_neg (by simpa using k.name_ne_typedef)]

/-- A heading and the brace behind it: the record has the name, whatever follows it. -/
theorem run_recordHeading (h : RecordHeading) {cs : List Char} (hcs : h.Spelled cs)
    (access : Option String) (joinable : Bool) (claim : Option (List Claim)) (rest : List Char) :
    ∃ run claim', run.texts.head? = some h.keyword.name.text ∧
      (run.texts[1]?).map withoutColons = h.name.map (·.text) ∧
      (t.inContext { access, joinable, claim }).run (cs ++ rest) =
        ((t.inContext { access, run, claim := claim' }).openRecord h.keyword.kind false run).run
          rest := by
  let keyword : Run := Run.pushWord [] h.keyword.name.text
  cases hcs with
  | @unnamed gap hname hgap =>
    obtain ⟨claim', hread⟩ := run_gap_inContext (t := t) (c := { access, run := keyword }) rfl claim
      hgap ('\x7b' :: rest)
    refine ⟨keyword, claim', rfl, by rw [hname]; rfl, ?_⟩
    rw [List.append_assoc, List.append_assoc]
    obtain ⟨d, cs, htext, hpart, hmark⟩ : ∃ d cs, gap ++ (['\x7b'] ++ rest) = d :: cs ∧
        isWordPart 0 d = false ∧ d ∉ ['(', ')', ',', ';'] := by
      cases gap with
      | nil => exact ⟨'\x7b', rest, rfl, by decide, by decide⟩
      | cons d gap =>
        have hspace : isSpace d = true := (isGap_cons.mp hgap).1
        exact ⟨d, _, rfl, isWordPart_of_isSpace hspace _, notMem_of_class (by decide) hspace⟩
    rw [htext, run_recordKeyword h.keyword access joinable claim hpart hmark, ← htext]
    refine hread.trans ?_
    change ((t.inContext _).step '\x7b').run rest = _
    rw [step_openBrace rfl, openBrace_heading rfl access claim']
  | @named name gap hname hne hgap =>
    obtain ⟨d, gap, rfl⟩ := List.exists_cons_of_ne_nil hne
    have hspace : isSpace d = true := (isGap_cons.mp hgap).1
    obtain ⟨claim₁, hread⟩ := run_gap_inContext (t := t) (c := { access, run := keyword }) rfl claim
      hgap (name.text.toList ++ (h.bases ++ '\x7b' :: rest))
    obtain ⟨token, bases, htoken, hbases, hnamed⟩ := run_headingName (t := t)
      (c := { access, run := keyword, claim := claim₁ }) ⟨rfl, rfl, rfl⟩ rfl (List.cons_ne_nil _ _) h
      name rest
    let first : Run := keyword.pushWord token
    have hfirst : first ≠ [] := by simp [first, Run.pushWord, Run.push]
    have hin : t.InHeading access first (t.inContext { access, run := first, claim := claim₁ }) :=
      .inContext ⟨[], claim₁, by simp⟩
    obtain ⟨c, ⟨more, claim', rfl⟩, hbrace⟩ := (hin.run hfirst hbases).step_brace hfirst
    have hhead : (first ++ more).texts.head? = some h.keyword.name.text := rfl
    refine ⟨first ++ more, claim', hhead, ?_, ?_⟩
    · rw [hname]
      exact congrArg some htoken
    · have hsplit : h.keyword.name.text.toList ++ (d :: gap ++ (name.text.toList ++
          (h.bases ++ ['\x7b']))) ++ rest = h.keyword.name.text.toList ++ d :: (gap ++
            (name.text.toList ++ (h.bases ++ '\x7b' :: rest))) := by simp
      rw [hsplit, run_recordKeyword h.keyword access joinable claim (isWordPart_of_isSpace hspace _)
        (notMem_of_class (by decide) hspace)]
      refine hread.trans (hnamed.trans ?_)
      rw [run_append]
      change (((t.inContext _).run bases).step '\x7b').run rest = _
      rw [hbrace, openBrace_heading hhead access claim']

end State

end HeaderDocs.Scan
