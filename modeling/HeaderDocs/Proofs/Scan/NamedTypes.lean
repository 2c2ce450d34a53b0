import HeaderDocs.Proofs.Scan.FunctionHeader
import HeaderDocs.Proofs.Scan.Names

/-!
# Types of names and stars

A type is a row of names, and then stars. It is read word by word while nothing but the run of the
context changes, and its fragments are written out again as it was spelled.

* `NamedType.run_apart`: a type with a space behind it.
* `NamedType.text_toRun`: the text of its fragments.
-/
namespace HeaderDocs.Scan

open HeaderDocs.Text

structure NamedType where
  words : List Name
  stars : Nat := 0
  words_ne_nil : words ≠ []

def NamedType.texts (t : NamedType) : List String := t.words.map (·.text)

def NamedType.text (t : NamedType) : String :=
  String.intercalate " " t.texts ++ if t.stars = 0 then "" else " " ++ starText t.stars

/-! ## Words and marks -/

/-- A context in which a declaration is read, and nothing else is going on. -/
structure Context.Declares (c : Context) : Prop where
  braces : c.braces = 0
  header : c.header = none
  joinable : c.joinable = false
  enumeration : c.enumeration = none
  typeAlias : c.typeAlias = none
  record : c.record = none

namespace Context

variable {c : Context}

theorem startRun_startRun (c : Context) : c.startRun.startRun = c.startRun := by
  unfold startRun
  split <;> simp_all

theorem parens_startRun (c : Context) : c.startRun.parens = c.parens := by
  unfold startRun
  split <;> rfl

theorem Declares.startRun (hc : c.Declares) : c.startRun.Declares := by
  unfold Context.startRun
  split
  · exact ⟨hc.braces, hc.header, hc.joinable, hc.enumeration, hc.typeAlias, hc.record⟩
  · exact hc

theorem Declares.inArguments (hc : c.Declares) : c.inArguments = false := by
  unfold Context.inArguments
  rw [hc.header]

end Context

/-- A word is collected if it neither is the access of members nor starts a function nor ends a
declarator. -/
theorem OpenScope.word_collected {s : OpenScope} (hc : s.context.Declares) {word : String} {d : Char}
    (haccess : s.context.run = [] → s.node.kind.isRecord = true →
      isAccess (withoutColons word) = false)
    (hopen : d = '(' → s.context.startRun.run.texts.head? = some "typedef" ∨
      "=" ∈ s.context.startRun.run.texts)
    (hends : d = ',' ∨ d = ';' → s.context.startRun.run = [] ∨
      s.context.startRun.run.texts.head? ≠ some "typedef" ∧ s.context.parens ≠ 0) :
    s.word word d = s.update (·.pushWord word) := by
  have hstart := hc.startRun
  have hmember : ¬(s.context.run.isEmpty && s.node.kind.isRecord &&
      isAccess (withoutColons word)) = true := by
    simp only [Bool.and_eq_true, List.isEmpty_iff, not_and, Bool.not_eq_true, and_imp]
    exact haccess
  have hpush : (s.update .startRun).update (·.pushWord word) = s.update (·.pushWord word) := by
    simp only [OpenScope.update, Context.pushWord, Context.startRun_startRun]
  have hcontext : (s.update .startRun).context = s.context.startRun := rfl
  unfold OpenScope.word OpenScope.declarationWord
  dsimp only
  rw [if_pos (by simpa using hc.braces), if_neg hmember, if_neg, if_neg, hpush]
  · split
    · rename_i hend
      simp only [Bool.and_eq_true, Bool.not_eq_true', List.isEmpty_eq_false_iff, Bool.or_eq_true,
        beq_iff_eq, hcontext] at hend
      obtain ⟨hhead, hdepth⟩ := (hends hend.2.symm).resolve_left hend.1.1
      have hfirst : s.context.startRun.run.texts.headD "" ≠ "typedef" := by
        intro he
        obtain ⟨f, fs, hrun⟩ := List.exists_cons_of_ne_nil hend.1.1
        rw [hrun] at he hhead
        exact hhead (congrArg some he)
      unfold OpenScope.endDeclarator
      simp only [hcontext, hstart.typeAlias, hstart.record, Option.isSome_none, Bool.or_self,
        Bool.false_eq_true, if_false, beq_iff_eq, hfirst, Context.parens_startRun, hdepth]
      exact hpush
    · rfl
  · simp [hcontext, hstart.inArguments]
  · simp only [hcontext, Bool.and_eq_true, beq_iff_eq, Bool.not_eq_true', List.contains_eq_mem,
      decide_eq_false_iff_not, bne_iff_ne, ne_eq, not_and, not_not]
    exact fun h => (hopen h.1.2).resolve_right h.2

namespace OpenScope

variable {s : OpenScope}

theorem endHeader_of_none (h : s.context.header = none) : s.endHeader = s := by
  unfold endHeader
  rw [h]

theorem endRun_of_nil (h : s.context.run = []) : s.endRun = s := by
  unfold endRun declaresVariable Run.isFunctionPointer
  rw [h]
  simp [Run.texts]

end OpenScope

variable {s : OpenScope} {parens : Nat} {run : Run} {claim : Option (List Claim)}

theorem word_collected (hroot : s.node.kind = .root) {d : Char}
    (hopen : d = '(' → run.texts.head? = some "typedef")
    (hends : d ∈ [',', ';'] → run = [] ∨ run.texts.head? ≠ some "typedef" ∧ parens ≠ 0)
    (word : String) :
    ({ s with context := { parens, run, claim } } : OpenScope).word word d =
      { s with context := { parens, run := run.pushWord word, claim } } := by
  have hstart : ({ parens, run, claim } : Context).startRun = { parens, run, claim } :=
    Context.startRun_of_base rfl
  have hdeclares : ({ parens, run, claim } : Context).Declares := ⟨rfl, rfl, rfl, rfl, rfl, rfl⟩
  refine (OpenScope.word_collected hdeclares (fun _ he => ?_) (fun he => .inl ?_)
    fun he => ?_).trans ?_
  · rw [hroot] at he
    cases he
  · rw [hstart]
    exact hopen he
  · rw [hstart]
    exact hends (by simpa using he)
  · simp only [OpenScope.update, Context.pushWord, hstart]

theorem run_collected (hroot : s.node.kind = .root) (w : Name) {d : Char}
    (hpart : State.isWordPart parens d = false)
    (hopen : d = '(' → run.texts.head? = some "typedef")
    (hends : d ∈ [',', ';'] → run = [] ∨ run.texts.head? ≠ some "typedef" ∧ parens ≠ 0)
    (rest : List Char) :
    (State.reading s { parens, run, claim }).run (w.text.toList ++ d :: rest) =
      (State.reading s { parens, run := run.pushWord w.text, claim }).run (d :: rest) := by
  have hword : (State.reading s { parens, run, claim }).update (·.word w.text d) =
      State.reading s { parens, run := run.pushWord w.text, claim } :=
    congrArg (fun scope => ({ scope } : State)) (word_collected hroot hopen hends w.text)
  rw [State.run_name rfl w hpart, hword]
  rfl

theorem run_space (cs : List Char) : (State.reading s { parens, run, claim }).run (' ' :: cs) =
    (State.reading s { parens, run, claim }).run cs := by
  change ((State.reading s { parens, run, claim }).plain ' ').run cs = _
  unfold State.plain
  rw [if_neg (by decide), if_pos (by decide)]

theorem run_star (hrun : run ≠ []) (cs : List Char) :
    (State.reading s { parens, run, claim }).run ('*' :: cs) =
      (State.reading s { parens, run := run.pushMark "*", claim }).run cs := by
  obtain ⟨f, fs, rfl⟩ := List.exists_cons_of_ne_nil hrun
  rfl

theorem run_openParen (hrun : run ≠ []) (cs : List Char) :
    (State.reading s { parens, run, claim }).run ('(' :: cs) =
      (State.reading s { parens := parens + 1, run := run.pushMark "(", claim }).run cs := by
  obtain ⟨f, fs, rfl⟩ := List.exists_cons_of_ne_nil hrun
  rfl

theorem run_closeParen (hrun : run ≠ []) (cs : List Char) :
    (State.reading s { parens := parens + 1, run, claim }).run (')' :: cs) =
      (State.reading s { parens, run := run ++ [⟨")", false⟩], claim }).run cs := by
  obtain ⟨f, fs, rfl⟩ := List.exists_cons_of_ne_nil hrun
  rfl

theorem run_comma (hrun : run ≠ []) (cs : List Char) :
    (State.reading s { parens, run, claim }).run (',' :: cs) =
      (State.reading s { parens, run := run ++ [⟨",", false⟩], claim }).run cs := by
  obtain ⟨f, fs, rfl⟩ := List.exists_cons_of_ne_nil hrun
  rfl

theorem run_comma_nothing (cs : List Char) :
    (State.reading s { parens, claim }).run (',' :: cs) =
      (State.reading s { parens, claim }).run cs := rfl

/-! ## Types -/

/-- The names of a row, of which the first is separated as given. -/
def wordsRun (spaced : Bool) : List Name → Run
  | [] => []
  | w :: ws => ⟨w.text, spaced⟩ :: ws.map (⟨·.text, true⟩)

def spacedOut (ws : List Name) : List Char := ws.flatMap fun w => w.text.toList ++ [' ']

/-- The next word is separated as given. -/
def Run.Awaits (run : Run) (spaced : Bool) : Prop :=
  ∀ word, run.pushWord word = run ++ [⟨word, spaced⟩]

theorem awaits_nil : Run.Awaits [] false := fun _ => rfl

theorem Run.EndsInName.awaits (h : run.EndsInName) : run.Awaits true := h.pushWord

/-- A word behind spaces or stars, where it goes on with a space. -/
theorem run_spaced (hroot : s.node.kind = .root) (w : Name) (rest : List Char) :
    (State.reading s { parens, run, claim }).run (w.text.toList ++ ' ' :: rest) =
      (State.reading s { parens, run := run.pushWord w.text, claim }).run rest := by
  rw [run_collected hroot w (isWordPart_of_isSpace (by decide) _)
    (fun hd => absurd hd (by decide : ' ' ≠ '('))
    (fun hd => absurd hd (by decide : ' ' ∉ [',', ';'])), run_space]

theorem endsInName_wordsRun {ws : List Name} (hws : ws ≠ []) (run : Run) (spaced : Bool) :
    (run ++ wordsRun spaced ws).EndsInName := by
  obtain ⟨w, ws, rfl⟩ := List.exists_cons_of_ne_nil hws
  rcases List.eq_nil_or_concat ws with rfl | ⟨before, last, rfl⟩
  · exact Run.endsInName_concat run w spaced
  · refine ⟨run ++ ⟨w.text, spaced⟩ :: before.map (⟨·.text, true⟩), last, true, ?_⟩
    simp [wordsRun]

theorem run_moreNames (hroot : s.node.kind = .root) (hend : run.EndsInName) (ws : List Name)
    (rest : List Char) :
    (State.reading s { parens, run, claim }).run (spacedOut ws ++ rest) =
      (State.reading s { parens, run := run ++ ws.map (⟨·.text, true⟩), claim }).run rest := by
  induction ws generalizing run with
  | nil => simp [spacedOut]
  | cons w ws ih =>
    have hnext := ih (Run.endsInName_concat run w true)
    rw [List.append_assoc, List.singleton_append] at hnext
    rw [List.map_cons, ← hnext, ← hend.pushWord w.text, ← run_spaced hroot]
    simp [spacedOut]

theorem run_spacedOut (hroot : s.node.kind = .root) {spaced : Bool} (hrun : run.Awaits spaced)
    (ws : List Name) (rest : List Char) :
    (State.reading s { parens, run, claim }).run (spacedOut ws ++ rest) =
      (State.reading s { parens, run := run ++ wordsRun spaced ws, claim }).run rest := by
  cases ws with
  | nil => simp [spacedOut, wordsRun]
  | cons w ws =>
    have htext : spacedOut (w :: ws) ++ rest = w.text.toList ++ ' ' :: (spacedOut ws ++ rest) := by
      simp [spacedOut]
    rw [htext, run_spaced hroot, hrun w.text,
      run_moreNames hroot (Run.endsInName_concat run w spaced)]
    simp [wordsRun]

theorem run_moreStars (before : Run) (spaced : Bool) (n : Nat) (rest : List Char) :
    (State.reading s { parens, run := before ++ [⟨"*", spaced⟩], claim }).run
        (List.replicate n '*' ++ rest) =
      (State.reading s
        { parens, run := before ++ [⟨"*", spaced⟩] ++ List.replicate n ⟨"*", false⟩, claim }).run
          rest := by
  induction n generalizing before spaced with
  | zero => simp
  | succ n ih =>
    rw [List.replicate_succ, List.replicate_succ, List.cons_append, run_star (by simp),
      pushMark_star, ih]
    simp

theorem run_stars (hend : run.EndsInName) (n : Nat) (rest : List Char) :
    (State.reading s { parens, run, claim }).run (List.replicate n '*' ++ rest) =
      (State.reading s { parens, run := run ++ starRun n, claim }).run rest := by
  cases n with
  | zero => simp [starRun]
  | succ n =>
    have hne : run ≠ [] := by
      obtain ⟨before, w, spaced, rfl⟩ := hend
      simp
    rw [List.replicate_succ, List.cons_append, run_star hne, hend.pushMark, run_moreStars]
    simp [starRun]

/-- Names and stars, as a word behind them finds them. -/
theorem run_leading (hroot : s.node.kind = .root) {spaced : Bool} (hrun : run.Awaits spaced)
    {ws : List Name} {n : Nat} (hn : n ≠ 0 → ws ≠ []) (rest : List Char) :
    (State.reading s { parens, run, claim }).run (spacedOut ws ++ (List.replicate n '*' ++ rest)) =
      (State.reading s { parens, run := run ++ (wordsRun spaced ws ++ starRun n), claim }).run
        rest := by
  rw [run_spacedOut hroot hrun, ← List.append_assoc]
  by_cases hzero : n = 0
  · subst hzero
    simp [starRun]
  · exact run_stars (endsInName_wordsRun (hn hzero) run spaced) n rest

theorem exists_starRun (run : Run) {n : Nat} (hn : n ≠ 0) :
    ∃ before spaced, run ++ starRun n = before ++ [⟨"*", spaced⟩] := by
  obtain ⟨n, rfl⟩ := Nat.exists_eq_succ_of_ne_zero hn
  cases n with
  | zero => exact ⟨run, true, rfl⟩
  | succ n => exact ⟨run ++ ⟨"*", true⟩ :: List.replicate n ⟨"*", false⟩, false, by
      simp [starRun, List.replicate_succ']⟩

theorem awaits_star (before : Run) (spaced : Bool) :
    Run.Awaits (before ++ [⟨"*", spaced⟩]) false := by
  intro word
  simp [Run.pushWord, Run.push, Fragment.startsWith]

theorem awaits_stars (run : Run) {n : Nat} (hn : n ≠ 0) : Run.Awaits (run ++ starRun n) false := by
  obtain ⟨before, spaced, he⟩ := exists_starRun run hn
  exact he ▸ awaits_star before spaced

theorem toList_spacedOut {ws : List Name} (hws : ws ≠ []) :
    spacedOut ws = (String.intercalate " " (ws.map (·.text))).toList ++ [' '] := by
  induction ws with
  | nil => exact absurd rfl hws
  | cons first rest ih =>
    cases rest with
    | nil => simp [spacedOut]
    | cons second rest =>
      have hrest := ih (List.cons_ne_nil _ _)
      rw [List.map_cons] at hrest
      rw [List.map_cons, List.map_cons, String.intercalate_cons_cons]
      change first.text.toList ++ [' '] ++ spacedOut (second :: rest) = _
      rw [hrest]
      simp

theorem spacedOut_concat (ws : List Name) (last : Name) :
    (String.intercalate " " ((ws ++ [last]).map (·.text))).toList =
      spacedOut ws ++ last.text.toList := by
  have hall : spacedOut (ws ++ [last]) = _ := toList_spacedOut (by simp)
  rw [spacedOut, List.flatMap_append] at hall
  simpa [spacedOut, ← List.append_assoc] using hall.symm

theorem toList_starText (n : Nat) : (starText n).toList = List.replicate n '*' :=
  String.toList_ofList

def spaceIf (spaced : Bool) : String := if spaced then " " else ""

theorem tailText_wordsRun (spaced : Bool) {ws : List Name} (hws : ws ≠ []) :
    Run.tailText (wordsRun spaced ws) =
      spaceIf spaced ++ String.intercalate " " (ws.map (·.text)) := by
  obtain ⟨w, ws, rfl⟩ := List.exists_cons_of_ne_nil hws
  have hrest := append_foldr_separated w.text (ws.map (·.text)) ""
  rw [wordsRun, Run.tailText_cons, String.append_assoc]
  simp only [List.map_map, String.append_empty] at hrest
  rw [List.map_cons, ← hrest]
  simp [spaceIf, Run.tailText, Function.comp_def]

namespace NamedType

variable (t : NamedType) {spaced : Bool}

def toRun (spaced : Bool) : Run := wordsRun spaced t.words ++ starRun t.stars

theorem tailText_toRun (spaced : Bool) :
    Run.tailText (t.toRun spaced) = spaceIf spaced ++ t.text := by
  rw [toRun, Run.tailText_append, tailText_wordsRun spaced t.words_ne_nil, Run.tailText,
    foldr_separated_starRun, NamedType.text, String.append_assoc]
  rfl

theorem toRun_ne_nil (spaced : Bool) : t.toRun spaced ≠ [] := by
  obtain ⟨w, ws, hwords⟩ := List.exists_cons_of_ne_nil t.words_ne_nil
  simp [toRun, hwords, wordsRun]

theorem text_toRun (spaced : Bool) : Run.text (t.toRun spaced) = t.text := by
  have htail := t.tailText_toRun false
  obtain ⟨w, ws, hwords⟩ := List.exists_cons_of_ne_nil t.words_ne_nil
  rw [toRun, hwords, wordsRun, List.cons_append, Run.tailText_cons] at htail
  rw [toRun, hwords, wordsRun, List.cons_append, Run.text_cons]
  simpa [spaceIf] using htail

theorem texts_toRun (spaced : Bool) :
    (t.toRun spaced).texts = t.texts ++ List.replicate t.stars "*" := by
  obtain ⟨w, ws, hwords⟩ := List.exists_cons_of_ne_nil t.words_ne_nil
  have hstars : Run.texts (starRun t.stars) = _ := WrittenType.texts_starRun t.stars
  rw [← hstars]
  simp [toRun, texts, hwords, wordsRun, Run.texts]

theorem head?_texts_toRun (spaced : Bool) :
    (t.toRun spaced).texts.head? = t.words.head?.map (·.text) := by
  obtain ⟨w, ws, hwords⟩ := List.exists_cons_of_ne_nil t.words_ne_nil
  rw [texts_toRun, texts, hwords]
  rfl

/-- A type that returns something ends in no `void`. -/
theorem getLast?_texts_toRun (hreturns : t.stars = 0 → t.words.getLast?.map (·.text) ≠ some "void")
    (spaced : Bool) : (t.toRun spaced).texts.getLast? ≠ some "void" := by
  rw [texts_toRun]
  by_cases hzero : t.stars = 0
  · rw [hzero, List.replicate_zero, List.append_nil, texts, List.getLast?_map]
    exact hreturns hzero
  · rw [List.getLast?_append_of_ne_nil _ (by simpa using hzero), List.getLast?_replicate, if_neg hzero]
    decide

theorem closeUp_toRun : (t.toRun false).closeUp = t.toRun false := by
  obtain ⟨w, ws, hwords⟩ := List.exists_cons_of_ne_nil t.words_ne_nil
  simp [toRun, hwords, wordsRun, Run.closeUp]

theorem startsWith_toRun {c : Char} (hc : isWordChar c = false) (hstar : c ≠ '*') (spaced : Bool)
    {f : Fragment} (hf : f ∈ t.toRun spaced) : f.startsWith c = false := by
  have htext : f.text ∈ t.texts ++ List.replicate t.stars "*" := by
    rw [← t.texts_toRun spaced]
    exact List.mem_map_of_mem hf
  unfold Fragment.startsWith
  rcases List.mem_append.mp htext with hname | hmark
  · obtain ⟨w, -, hw⟩ := List.mem_map.mp hname
    rw [← hw]
    simpa using fun he => w.notMem hc (List.mem_of_head? he)
  · rw [List.eq_of_mem_replicate hmark]
    simpa using Ne.symm hstar

theorem notMem_texts_toRun {text : String} (hname : ∀ w : Name, w.text ≠ text) (hstar : text ≠ "*")
    (spaced : Bool) : text ∉ (t.toRun spaced).texts := by
  rw [t.texts_toRun, List.mem_append, not_or]
  refine ⟨fun hm => ?_, fun hm => hstar (List.eq_of_mem_replicate hm)⟩
  obtain ⟨w, -, hw⟩ := List.mem_map.mp hm
  exact hname w hw

/-- Nothing stands between the last star of a type and what it declares. -/
theorem joinDeclared_text (name : String) :
    joinDeclared t.text name = t.text ++ (if t.stars = 0 then " " else "") ++ name := by
  by_cases hzero : t.stars = 0
  · obtain ⟨ws, w, hwords⟩ : ∃ ws w, t.words = ws ++ [w] :=
      ⟨_, _, (List.dropLast_append_getLast t.words_ne_nil).symm⟩
    have htext : t.text.toList = spacedOut ws ++ w.text.toList := by
      rw [← spacedOut_concat]
      simp [text, texts, hzero, hwords]
    obtain ⟨hne, hchars⟩ := w.chars
    have hword := hchars _ (List.getLast_mem hne)
    have hmark : ∀ mark : Char, isWordChar mark = false → w.text.toList.getLast hne ≠ mark := by
      rintro mark hmark he
      rw [he, hmark] at hword
      cases hword
    unfold joinDeclared
    rw [htext, List.getLast?_append_of_ne_nil _ hne, List.getLast?_eq_some_getLast hne]
    simp [hmark '*' (by decide), hmark '&' (by decide), hzero]
  · have htext : t.text.toList.getLast? = some '*' := by
      rw [text, if_neg hzero, ← String.append_assoc, String.toList_append, toList_starText,
        List.getLast?_append_of_ne_nil _ (by simpa using hzero), List.getLast?_replicate,
        if_neg hzero]
    unfold joinDeclared
    rw [htext]
    simp [hzero]

theorem notMem_text {c : Char} (hname : isWordChar c = false) (hmark : c ∉ [' ', '*']) :
    c ∉ t.text.toList := by
  simp only [List.mem_cons, List.not_mem_nil, or_false, not_or] at hmark
  have hwords : c ∉ (String.intercalate " " t.texts).toList := by
    intro hm
    have hspaced : c ∈ spacedOut t.words := by
      rw [toList_spacedOut t.words_ne_nil]
      exact List.mem_append_left _ hm
    obtain ⟨w, -, hw⟩ := List.mem_flatMap.mp hspaced
    rcases List.mem_append.mp hw with hw | hw
    · exact w.notMem hname hw
    · exact hmark.1 (List.mem_singleton.mp hw)
  unfold text
  rw [String.toList_append, List.mem_append, not_or]
  refine ⟨hwords, ?_⟩
  split
  · exact List.not_mem_nil
  · simp [hmark, toList_starText]

theorem pushMark_toRun (run : Run) (mark : String) :
    (run ++ t.toRun spaced).pushMark mark = run ++ t.toRun spaced ++ [⟨mark, t.stars == 0⟩] := by
  unfold toRun
  by_cases hzero : t.stars = 0
  · rw [hzero, starRun, List.append_nil, (endsInName_wordsRun t.words_ne_nil run spaced).pushMark]
    rfl
  · obtain ⟨before, star, hbefore⟩ := exists_starRun (run ++ wordsRun spaced t.words) hzero
    rw [← List.append_assoc, hbefore]
    have hstar : Fragment.endsWord ⟨"*", star⟩ = false := by cases star <;> decide
    simp [Run.pushMark, Run.push, hstar, hzero]

theorem run_apart (hroot : s.node.kind = .root) (hrun : run.Awaits spaced) (rest : List Char) :
    (State.reading s { parens, run, claim }).run (t.text.toList ++ ' ' :: rest) =
      (State.reading s { parens, run := run ++ t.toRun spaced, claim }).run rest := by
  by_cases hzero : t.stars = 0
  · have htext : t.text.toList ++ ' ' :: rest = spacedOut t.words ++ rest := by
      simp [text, texts, hzero, toList_spacedOut t.words_ne_nil]
    rw [htext, run_spacedOut hroot hrun, toRun, hzero, starRun, List.append_nil]
  · have htext : t.text.toList ++ ' ' :: rest =
        spacedOut t.words ++ (List.replicate t.stars '*' ++ ' ' :: rest) := by
      simp [text, texts, hzero, toList_spacedOut t.words_ne_nil, toList_starText]
    rw [htext, run_leading hroot hrun fun _ => t.words_ne_nil]
    exact run_space rest

end NamedType

theorem awaits_openParen (before : Run) (spaced : Bool) :
    Run.Awaits (before ++ [⟨"(", spaced⟩]) false := by
  intro word
  simp [Run.pushWord, Run.push, Fragment.startsWith]

theorem awaits_comma (before : Run) (spaced : Bool) :
    Run.Awaits (before ++ [⟨",", spaced⟩]) true := by
  intro word
  simp [Run.pushWord, Run.push, Fragment.startsWith, Fragment.isSign]

end HeaderDocs.Scan
