import HeaderDocs.Proofs.Scan.Body

/-!
# Declarations that are skimmed

A declaration that starts with `static` or `extern` is left out: its words are read and nothing is
made of them. `Skim` is what a first look at such a text finds: the words of its code, how deep in
parentheses it is, and whether it holds an equals sign or an opening parenthesis.

Where a word is directly followed by a parenthesis or, outside of parentheses, by a comma, a
declarator ends, and a declaration that is left out is forgotten with its first words: what follows
is skimmed as if nothing had been read. A skim stops where the scanner would make something of the
text: at braces and semicolons, at a `typedef`, and at the end of a declarator of anything else.

* `Skims.run`: as long as a text can be skimmed, the scanner collects its words, and the tree stays
  as it is.
-/
namespace HeaderDocs.Scan

open HeaderDocs.Text

/-! ## Skimming a text -/

/-- What a first look at a part of a declaration finds. -/
structure Skim where
  layer : Layer := .code
  /-- The word being read, backwards. -/
  word : Option (List Char) := none
  /-- The words before it. -/
  words : List String := []
  /-- How many parentheses are open. -/
  depth : Nat := 0
  /-- Whether an equals sign follows a word. -/
  valued : Bool := false
  /-- Whether an opening parenthesis follows a word. -/
  opened : Bool := false
deriving DecidableEq, Repr

namespace Skim

def endWord (k : Skim) : Skim :=
  match k.word with
  | some word => { k with word := none, words := k.words ++ [String.ofList word.reverse] }
  | none => k

/-- Takes a character of the code that continues no word. -/
def mark? (k : Skim) (c : Char) : Option Skim :=
  if c == '\x7b' || c == '\x7d' || c == ';' then none
  else if c == '(' then
    some { k with depth := k.depth + 1, opened := k.opened || !k.words.isEmpty }
  else if c == ')' then
    if k.depth = 0 then none else some { k with depth := k.depth - 1 }
  else if c == '=' then some { k with valued := k.valued || !k.words.isEmpty }
  else if !isSpace c && State.isWordStart c then some { k with word := some [c] }
  else some k

/-- Whether a character directly after a word ends a declarator, or starts a function. -/
def ends (k : Skim) (c : Char) : Bool := (c == '(' && !k.valued) || (c == ',' && k.depth == 0)

/-- Whether the declaration starts with a word for which it is left out. -/
def isLeftOut (k : Skim) : Bool := k.words.head?.any (Scan.isLeftOut .root)

/-- Forgets the declaration that was read so far, but not the parentheses. -/
def forget (k : Skim) : Skim := { layer := k.layer, depth := k.depth }

def read? (k : Skim) (c : Char) : Option Skim :=
  let read :=
    if k.layer.isCode c then
      match k.word with
      | some word =>
        if State.isWordPart k.depth c then some { k with word := some (c :: word) }
        else if k.ends c then
          if k.isLeftOut then k.forget.mark? c else none
        else if k.endWord.words.head? == some "typedef" then none
        else k.endWord.mark? c
      | none => k.mark? c
    else some k
  read.map ({ · with layer := k.layer.next c })

/-- Whether the text can end here: no comment, literal or directive is open. -/
def isWhole (k : Skim) : Bool := k.layer == .code || k.layer == .slash

end Skim

def skim? (text : List Char) : Option Skim := text.foldlM Skim.read? {}

/-! ## What the scanner has read -/

def Mode.word? : Mode → Option (List Char)
  | .word text => some text
  | _ => none

theorem Mode.word?_eq_none {m : Mode} (h : m.layer ≠ .code) : m.word? = none := by
  cases m with
  | word text => exact absurd rfl h
  | _ => rfl

/-- A word starts as words do, and a literal with its quote. -/
def Mode.Begun : Mode → Prop
  | .word text => ∃ c, text.getLast? = some c ∧ State.isWordStart c = true
  | .literal _ text => text ≠ []
  | _ => True

theorem Mode.Follows.begun {c : Char} {next : Mode} (h : Mode.Follows c .plain next) :
    next.Begun := by
  cases h with
  | same | slash => trivial
  | begins hnext =>
    cases hnext with
    | directive => trivial
    | literal => exact List.cons_ne_nil _ _
    | word hc => exact ⟨c, rfl, hc⟩

theorem Mode.GivesWay.begun {mode next : Mode} {c : Char} (h : mode.GivesWay c next) :
    next.Begun := by
  cases next with
  | word text => exact absurd rfl h.layer_ne
  | literal quote text =>
    obtain ⟨l, -, hl⟩ := Option.map_eq_some_iff.mp h.literal.symm
    cases hl
    exact List.cons_ne_nil _ _
  | _ => trivial

/-- A context in which nothing has been recorded and nothing is awaited. -/
def Context.pending (parens : Nat) (run : Run) (runComment comment : Option String)
    (joinable : Bool) : Context :=
  { parens, run, runComment, comment, joinable }

/-- The scope of a source that has changed nothing in the tree. -/
def OpenScope.idle (tree : Node) (context : Context) : OpenScope :=
  { OpenScope.begin tree .source with context }

namespace Skim

/-- What is known of the run that has been collected. -/
structure Fits (k : Skim) (run : Run) : Prop where
  head : run.texts.head? = k.words.head?
  valued : "=" ∈ run.texts ↔ k.valued = true
  opened : "(" ∈ run.texts → k.opened = true

/-- The scope when a text has been skimmed: only a run has been collected. -/
def Holds (k : Skim) (tree : Node) (s : OpenScope) : Prop :=
  ∃ run runComment comment joinable,
    s = .idle tree (.pending k.depth run runComment comment joinable) ∧ k.Fits run

variable {k k' : Skim} {run : Run}

theorem endWord_of_word {word : List Char} (hw : k.word = some word) :
    k.endWord = { k with word := none, words := k.words ++ [String.ofList word.reverse] } := by
  rw [endWord, hw]

theorem endWord_of_none (hw : k.word = none) : k.endWord = k := by
  rw [endWord, hw]

theorem head?_words_endWord {first : String} (h : k.words.head? = some first) :
    k.endWord.words.head? = some first := by
  unfold endWord
  split
  · rw [List.head?_append, h]
    rfl
  · exact h

theorem Fits.run_eq_nil_iff (h : k.Fits run) : run = [] ↔ k.words = [] := by
  have hhead := h.head
  cases run with
  | nil =>
    simp only [Run.texts, List.map_nil, List.head?_nil, true_iff] at hhead ⊢
    simpa using hhead.symm
  | cons f run =>
    simp only [reduceCtorEq, false_iff]
    intro hwords
    simp [hwords, Run.texts] at hhead

theorem texts_push (run : Run) (text : String) (spaced : Bool) :
    (run.push text spaced).texts = run.texts ++ [text] := by
  simp [Run.push, Run.texts]

theorem mem_texts_push {run : Run} {text mark : String} {spaced : Bool} :
    mark ∈ (run.push text spaced).texts ↔ mark ∈ run.texts ∨ mark = text := by
  rw [texts_push, List.mem_append, List.mem_singleton]

theorem Fits.nil (layer : Layer) (word : Option (List Char)) (depth : Nat) :
    Fits { layer, word, depth } [] := ⟨rfl, by simp [Run.texts], by simp [Run.texts]⟩

/-- What is pushed onto a run that has started, unless it is a mark that counts. -/
theorem Fits.push (h : k.Fits run) {text : String} (he : text ≠ "=") (hp : text ≠ "(")
    (hne : run ≠ []) (spaced : Bool) : k.Fits (run.push text spaced) := by
  obtain ⟨f, run, rfl⟩ := List.exists_cons_of_ne_nil hne
  refine ⟨h.head, ?_, fun hm => ?_⟩
  · rw [mem_texts_push, h.valued]
    exact or_iff_left he.symm
  · exact h.opened ((mem_texts_push.mp hm).resolve_right hp.symm)

theorem Fits.word (h : k.Fits run) {word : List Char} (hw : k.word = some word)
    (he : String.ofList word.reverse ≠ "=") (hp : String.ofList word.reverse ≠ "(") :
    k.endWord.Fits (run.pushWord (String.ofList word.reverse)) := by
  have hend := endWord_of_word hw
  unfold Run.pushWord
  refine ⟨?_, ?_, fun hm => ?_⟩
  · rw [hend, texts_push, List.head?_append, List.head?_append, h.head]
  · rw [hend, mem_texts_push, h.valued]
    exact or_iff_left he.symm
  · rw [hend]
    exact h.opened ((mem_texts_push.mp hm).resolve_right hp.symm)

def withMark (run : Run) (text : String) (spaced : Bool) : Run :=
  if run.isEmpty then run else run.push text spaced

theorem Fits.withMark (h : k.Fits run) {text : String} (he : text ≠ "=") (hp : text ≠ "(")
    (spaced : Bool) : k.Fits (withMark run text spaced) := by
  unfold Skim.withMark
  split
  · exact h
  · rename_i hne
    exact h.push he hp (by simpa using hne) spaced

theorem Fits.openParen (h : k.Fits run) (spaced : Bool) :
    { k with depth := k.depth + 1, opened := k.opened || !k.words.isEmpty : Skim }.Fits
      (Skim.withMark run "(" spaced) := by
  unfold Skim.withMark
  split
  · exact ⟨h.head, h.valued, fun hm => by simp [h.opened hm]⟩
  · rename_i hrun
    have hne : run ≠ [] := by simpa using hrun
    have hwords : k.words ≠ [] := fun hw => hne (h.run_eq_nil_iff.mpr hw)
    obtain ⟨f, run, rfl⟩ := List.exists_cons_of_ne_nil hne
    refine ⟨h.head, ?_, fun _ => by simp [hwords]⟩
    rw [mem_texts_push, h.valued]
    exact or_iff_left (by decide)

theorem Fits.equalsSign (h : k.Fits run) (spaced : Bool) :
    { k with valued := k.valued || !k.words.isEmpty : Skim }.Fits
      (Skim.withMark run "=" spaced) := by
  unfold Skim.withMark
  split
  · rename_i hrun
    have hwords : k.words = [] := h.run_eq_nil_iff.mp (by simpa using hrun)
    exact ⟨h.head, by simpa [hwords] using h.valued, h.opened⟩
  · rename_i hrun
    have hne : run ≠ [] := by simpa using hrun
    have hwords : k.words ≠ [] := fun hw => hne (h.run_eq_nil_iff.mpr hw)
    obtain ⟨f, run, rfl⟩ := List.exists_cons_of_ne_nil hne
    refine ⟨h.head, ?_, fun hm => h.opened ((mem_texts_push.mp hm).resolve_right (by decide))⟩
    rw [mem_texts_push]
    simp [hwords]

end Skim

/-! ## Contexts in which only a run is collected -/

namespace Context

variable (parens : Nat) (run : Run) (runComment comment : Option String) (joinable : Bool)

theorem startRun_pending :
    (pending parens run runComment comment joinable).startRun =
      pending parens run runComment comment joinable := by
  cases run <;> rfl

theorem pushWord_pending (word : String) :
    (pending parens run runComment comment joinable).pushWord word =
      pending parens (run.pushWord word) runComment comment joinable := by
  unfold pushWord
  rw [startRun_pending]
  rfl

/-- A mark and its spacing, which depends on what the run ends in. -/
theorem pushMark_pending (mark : String) : ∃ spaced,
    (pending parens run runComment comment joinable).pushMark mark =
      pending parens (Skim.withMark run mark spaced) runComment comment joinable := by
  unfold pushMark Skim.withMark
  rw [startRun_pending]
  cases run with
  | nil => exact ⟨false, rfl⟩
  | cons => exact ⟨_, rfl⟩

theorem pushIfStarted_pending (text : String) (spaced : Bool) :
    (pending parens run runComment comment joinable).pushIfStarted text spaced =
      pending parens (Skim.withMark run text spaced) runComment comment joinable := by
  unfold pushIfStarted Skim.withMark
  cases run <;> rfl

theorem pushFragment_pending (text : String) (spaced : Bool) :
    (pending parens run runComment comment joinable).pushFragment text spaced =
      pending parens (Skim.withMark run text spaced) runComment comment joinable := by
  unfold pushFragment
  rw [startRun_pending, pushIfStarted_pending]

end Context

/-! ## Scopes in which only a run is collected -/

theorem OpenScope.pushWord_idle (tree : Node) (parens : Nat) (run : Run)
    (runComment comment : Option String) (joinable : Bool) (word : String) :
    (OpenScope.idle tree (.pending parens run runComment comment joinable)).update
      (·.pushWord word) =
        .idle tree (.pending parens (run.pushWord word) runComment comment joinable) :=
  congrArg (OpenScope.idle tree) (Context.pushWord_pending ..)

/-- How a word is read where nothing but a run has been collected. -/
theorem OpenScope.word_idle {tree : Node} (hroot : tree.kind = .root) (parens : Nat) (run : Run)
    (runComment comment : Option String) (joinable : Bool) (word : String) (c : Char) :
    (OpenScope.idle tree (.pending parens run runComment comment joinable)).word word c =
      if c == '(' && !run.texts.contains "=" && run.texts.head? != some "typedef" then
        (OpenScope.idle tree (.pending parens run runComment comment joinable)).startFunction word
      else if !run.isEmpty && (c == ';' || c == ',') then
        (OpenScope.idle tree (.pending parens run runComment comment joinable)).endDeclarator word c
      else .idle tree (.pending parens (run.pushWord word) runComment comment joinable) := by
  have hstart : (OpenScope.idle tree (.pending parens run runComment comment joinable)).update
      .startRun = .idle tree (.pending parens run runComment comment joinable) :=
    congrArg (OpenScope.idle tree) (Context.startRun_pending ..)
  have hrecord : tree.kind.isRecord = false := by
    rw [hroot]
    rfl
  have hword : (OpenScope.idle tree (.pending parens run runComment comment joinable)).word word c =
      (OpenScope.idle tree (.pending parens run runComment comment joinable)).declarationWord word c :=
    rfl
  rw [hword, OpenScope.declarationWord]
  dsimp only
  rw [if_neg (by simp [OpenScope.idle, OpenScope.begin, hrecord]), hstart,
    OpenScope.pushWord_idle,
    show (OpenScope.idle tree (.pending parens run runComment comment joinable)).context.inArguments =
      false from rfl,
    show (OpenScope.idle tree (.pending parens run runComment comment joinable)).context.header.isNone =
      true from rfl]
  simp only [Bool.true_and, Bool.and_true, Bool.false_and, Bool.false_eq_true, if_false]
  rfl

namespace Skim

variable {k k' : Skim} {tree : Node} {s : OpenScope}

theorem Holds.update (h : k.Holds tree s) {f : Context → Context}
    (hf : ∀ run runComment comment joinable, k.Fits run →
      ∃ run', f (.pending k.depth run runComment comment joinable) =
        .pending k'.depth run' runComment comment joinable ∧ k'.Fits run') :
    k'.Holds tree (s.update f) := by
  obtain ⟨run, runComment, comment, joinable, rfl, hfits⟩ := h
  obtain ⟨run', he, hfits'⟩ := hf run runComment comment joinable hfits
  exact ⟨run', runComment, comment, joinable, congrArg (OpenScope.idle tree) he, hfits'⟩

/-- What a run holds does not depend on what is being read. -/
theorem Holds.withWord (h : k.Holds tree s) (word : Option (List Char)) :
    { k with word : Skim }.Holds tree s := by
  obtain ⟨run, runComment, comment, joinable, rfl, hfits⟩ := h
  exact ⟨run, runComment, comment, joinable, rfl,
    ⟨hfits.head, hfits.valued, hfits.opened⟩⟩

theorem Holds.withLayer (h : k.Holds tree s) (layer : Layer) :
    { k with layer : Skim }.Holds tree s := by
  obtain ⟨run, runComment, comment, joinable, rfl, hfits⟩ := h
  exact ⟨run, runComment, comment, joinable, rfl,
    ⟨hfits.head, hfits.valued, hfits.opened⟩⟩

theorem Holds.withJoinable (h : k.Holds tree s) (joinable : Bool) :
    k.Holds tree (s.update ({ · with joinable })) := by
  obtain ⟨run, runComment, comment, -, rfl, hfits⟩ := h
  exact ⟨run, runComment, comment, joinable, rfl, hfits⟩

theorem Holds.endLine (h : k.Holds tree s) : k.Holds tree (s.update .endLine) := by
  obtain ⟨run, runComment, comment, joinable, rfl, hfits⟩ := h
  exact ⟨run, runComment, comment, joinable, rfl, hfits⟩

theorem Holds.pushMark (h : k.Holds tree s) {mark : String} (he : mark ≠ "=") (hp : mark ≠ "(") :
    k.Holds tree (s.update (·.pushMark mark)) := by
  refine h.update fun run runComment comment joinable hfits => ?_
  obtain ⟨spaced, hpush⟩ := Context.pushMark_pending k.depth run runComment comment joinable mark
  exact ⟨_, hpush, hfits.withMark he hp spaced⟩

theorem Holds.pushIfStarted (h : k.Holds tree s) {text : String} (he : text ≠ "=")
    (hp : text ≠ "(") (spaced : Bool) :
    k.Holds tree (s.update (·.pushIfStarted text spaced)) :=
  h.update fun _ _ _ _ hfits => ⟨_, Context.pushIfStarted_pending .., hfits.withMark he hp spaced⟩

theorem Holds.pushFragment (h : k.Holds tree s) {text : String} (he : text ≠ "=")
    (hp : text ≠ "(") (spaced : Bool) :
    k.Holds tree (s.update (·.pushFragment text spaced)) :=
  h.update fun _ _ _ _ hfits => ⟨_, Context.pushFragment_pending .., hfits.withMark he hp spaced⟩

/-- Neither an enumeration nor an argument list is open, so a comma is a mark like others. -/
theorem Holds.comma (h : k.Holds tree s) : k.Holds tree (s.update .comma) :=
  h.update fun _ _ _ _ hfits =>
    ⟨_, Context.pushIfStarted_pending .., hfits.withMark (by decide) (by decide) false⟩

theorem Holds.openParen (h : k.Holds tree s) :
    { k with depth := k.depth + 1, opened := k.opened || !k.words.isEmpty : Skim }.Holds tree
      (s.update .openParen) := by
  refine h.update fun run runComment comment joinable hfits => ?_
  obtain ⟨spaced, hpush⟩ := Context.pushMark_pending k.depth run runComment comment joinable "("
  refine ⟨_, ?_, hfits.openParen spaced⟩
  unfold Context.openParen
  rw [hpush]
  rfl

theorem Holds.closeParen (h : k.Holds tree s) (hk : k.depth ≠ 0) :
    { k with depth := k.depth - 1 : Skim }.Holds tree (s.update .closeParen) := by
  refine h.update fun run runComment comment joinable hfits => ?_
  have hclose : Context.closeParen (.pending k.depth run runComment comment joinable) =
      { (Context.pending k.depth run runComment comment joinable).pushIfStarted ")" false with
        parens := k.depth - 1 } := by
    unfold Context.closeParen
    rw [if_neg (by exact nofun), if_pos (by exact Nat.pos_of_ne_zero hk)]
    dsimp only
    rw [Context.pushIfStarted_pending]
    rfl
  have hfits' := hfits.withMark (by decide : ")" ≠ "=") (by decide) false
  exact ⟨_, by rw [hclose, Context.pushIfStarted_pending]; rfl,
    ⟨hfits'.head, hfits'.valued, hfits'.opened⟩⟩

theorem Holds.equals (h : k.Holds tree s) :
    { k with valued := k.valued || !k.words.isEmpty : Skim }.Holds tree (s.update .equals) := by
  refine h.update fun run runComment comment joinable hfits => ?_
  obtain ⟨spaced, hpush⟩ := Context.pushMark_pending k.depth run runComment comment joinable "="
  exact ⟨_, hpush, hfits.equalsSign spaced⟩

/-- A comment belongs to what the run declares, or waits. -/
theorem Holds.takeComment (h : k.Holds tree s) (hroot : tree.kind = .root) (text : String)
    (line : Bool) : k.Holds tree (s.takeComment text line) := by
  have hsame := h
  obtain ⟨run, runComment, comment, joinable, rfl, hfits⟩ := h
  have hrecord : tree.kind.isRecord = false := by
    rw [hroot]
    rfl
  unfold OpenScope.takeComment
  dsimp only
  split
  · exact hsame
  · split
    · rename_i claims hclaims
      cases hclaims
    · rw [if_neg (by simp [OpenScope.idle, OpenScope.begin, hrecord])]
      split
      · exact ⟨run, some text, comment, joinable, rfl, hfits⟩
      · exact ⟨run, runComment, _, line, rfl, hfits⟩

/-- A word is collected, if it is not followed by what would end the declaration. -/
theorem Holds.word (h : k.Holds tree s) (hroot : tree.kind = .root) {word : List Char}
    (hw : k.word = some word) (he : String.ofList word.reverse ≠ "=")
    (hp : String.ofList word.reverse ≠ "(") {c : Char} (hends : k.ends c = false)
    (hsemicolon : c ≠ ';') (htypedef : k.endWord.words.head? ≠ some "typedef") :
    k.endWord.Holds tree (s.word (String.ofList word.reverse) c) := by
  obtain ⟨run, runComment, comment, joinable, rfl, hfits⟩ := h
  have hfits' := hfits.word hw he hp
  have hdepth : k.endWord.depth = k.depth := by rw [endWord_of_word hw]
  have hhead : run.texts.head? ≠ some "typedef" := hfits.head ▸ mt head?_words_endWord htypedef
  refine ⟨_, runComment, comment, joinable, ?_, hfits'⟩
  rw [hdepth, OpenScope.word_idle hroot, if_neg]
  · split
    · -- a word before a comma is the last of a declarator only outside of parentheses
      rename_i hc
      simp only [Bool.and_eq_true, Bool.not_eq_true', List.isEmpty_eq_false_iff, Bool.or_eq_true,
        beq_iff_eq] at hc
      obtain ⟨hne, hc⟩ := hc
      have hc := hc.resolve_left hsemicolon
      have hparens : k.depth ≠ 0 := by simpa [ends, hc] using hends
      have hfirst : run.texts.headD "" ≠ "typedef" := by
        intro hfirst
        obtain ⟨f, run, rfl⟩ := List.exists_cons_of_ne_nil hne
        exact hhead (congrArg some hfirst)
      rw [← OpenScope.pushWord_idle]
      unfold OpenScope.endDeclarator
      dsimp only
      rw [if_neg (by exact nofun), if_neg (by simpa [OpenScope.idle, Context.pending] using hfirst),
        if_neg (by simpa [OpenScope.idle, Context.pending] using hparens)]
    · rfl
  · -- before a parenthesis, a word names no function once there is an equals sign
    simp only [Bool.and_eq_true, beq_iff_eq, Bool.not_eq_true', not_and]
    rintro ⟨rfl, hequals⟩
    have hvalued : k.valued = true := by simpa [ends] using hends
    simp [hfits.valued.mpr hvalued] at hequals

/-- Where a declarator of a declaration ends that is left out, all of it is forgotten. -/
theorem Holds.forget (h : k.Holds tree s) (hroot : tree.kind = .root) (word : String) {c : Char}
    (hends : k.ends c = true) (hleft : k.isLeftOut = true) :
    k.forget.Holds tree (s.word word c) := by
  obtain ⟨run, runComment, comment, joinable, rfl, hfits⟩ := h
  have hfirst : run.texts.head?.any (Scan.isLeftOut tree.kind) = true := by
    rw [hroot, hfits.head]
    exact hleft
  obtain ⟨first, hhead, hout⟩ := (Option.any_eq_true _ _).mp hfirst
  have htypedef : first ≠ "typedef" := by
    rintro rfl
    rw [hroot] at hout
    exact absurd hout (by decide)
  have hdrop : (OpenScope.idle tree (.pending k.depth run runComment comment joinable)).update
      .dropRun = .idle tree (.pending k.depth [] none comment joinable) := rfl
  refine ⟨[], none, comment, joinable, ?_, .nil ..⟩
  rw [OpenScope.word_idle hroot]
  by_cases hparen : c = '(' ∧ k.valued = false
  · obtain ⟨rfl, hvalued⟩ := hparen
    have hequals : "=" ∉ run.texts := by
      rw [hfits.valued, hvalued]
      exact nofun
    rw [if_pos (by simp [hhead, htypedef, hequals]), OpenScope.startFunction]
    dsimp only
    rw [if_pos (by exact hfirst), hdrop]
    rfl
  · have hc : c = ',' ∧ k.depth = 0 := by
      simp only [ends, Bool.or_eq_true, Bool.and_eq_true, beq_iff_eq, Bool.not_eq_true'] at hends
      exact hends.resolve_left hparen
    obtain ⟨rfl, hdepth⟩ := hc
    have hne : run ≠ [] := by
      rintro rfl
      cases hhead
    rw [if_neg (by simp), if_pos (by simpa using hne), OpenScope.endDeclarator, if_neg (by exact nofun),
      if_neg (by simpa [OpenScope.idle, Context.pending, hhead] using htypedef),
      if_pos (by simpa [OpenScope.idle, Context.pending] using hdepth),
      if_pos (by simpa [OpenScope.idle, Context.pending, OpenScope.begin, hhead] using hout), hdrop]
    rfl

end Skim

namespace State

variable {k k' : Skim} {tree : Node} {s : State} {c : Char}

/-! ## Reading a declaration that is skimmed -/

/-- The scanner has collected what a skim has found, and has changed nothing. -/
structure Skims (s : State) (tree : Node) (k : Skim) : Prop where
  reads : s.ReadsIn k.layer
  begun : s.mode.Begun
  word : s.mode.word? = k.word
  enclosing : s.enclosing = []
  scope : k.Holds tree s.scope

/-- A word is no mark, since it starts as words do. -/
theorem ofList_reverse_ne {word : List Char} {c d : Char} (hc : word.getLast? = some c)
    (hstart : isWordStart c = true) (hd : isWordStart d = false) :
    String.ofList word.reverse ≠ String.ofList [d] := by
  intro he
  have hlist : word.reverse = [d] := String.ofList_injective he
  have hword : word = [d] := by
    rw [← List.reverse_reverse word, hlist]
    rfl
  rw [hword, List.getLast?_singleton, Option.some.injEq] at hc
  rw [hc, hstart] at hd
  cases hd

theorem mark?_other (hc : c ∉ ['\x7b', '\x7d', ';', '(', ')', '=']) :
    k.mark? c = some (if !isSpace c && isWordStart c then { k with word := some [c] } else k) := by
  simp only [List.mem_cons, List.not_mem_nil, or_false, not_or, ← beq_eq_false_iff_ne] at hc
  obtain ⟨h1, h2, h3, h4, h5, h6⟩ := hc
  unfold Skim.mark?
  simp only [h1, h2, h3, h4, h5, h6, Bool.or_false, Bool.false_eq_true, if_false]
  split <;> rfl

theorem mark?_eq_some (hc : c ∉ ['\x7b', '\x7d', ';', '(', ')', '='])
    (hw : isSpace c = true ∨ isWordStart c = false) : k.mark? c = some k := by
  have hword : (!isSpace c && isWordStart c) = false := by
    rcases hw with hw | hw <;> simp [hw]
  rw [mark?_other hc, hword]
  rfl

/-- A mark of the code, or the first character of a word. -/
theorem mark_of_holds (h : k.Holds tree s.scope) (hmode : s.mode = .plain) (hword : k.word = none)
    (hspace : isSpace c = false) (hc : k.mark? c = some k') :
    k'.Holds tree (s.mark c).scope ∧ (s.mark c).mode.word? = k'.word ∧
      (s.mark c).enclosing = s.enclosing := by
  have hplain : s.mode.word? = k.word := by rw [hmode, hword]; rfl
  -- marks that a skim does not take note of
  have hsame : c ∉ ['\x7b', '\x7d', ';', '(', ')', '='] → isWordStart c = false → k' = k := by
    intro hd hw
    rw [mark?_eq_some hd (.inr hw)] at hc
    exact (Option.some.inj hc).symm
  refine mark_cases c ?begins ?openBrace ?closeBrace ?openParen ?closeParen ?semicolon ?comma
    ?equals ?sign ?ampersand ?colon ?other
  case begins =>
    intro mode hmode
    cases hmode with
    | directive hhash =>
      rw [hsame (hhash ▸ (by decide)) (hhash ▸ (by decide))]
      exact ⟨h, hword.symm, rfl⟩
    | literal hquote =>
      rw [hsame (by obtain rfl | rfl := hquote <;> decide)
        (by obtain rfl | rfl := hquote <;> decide)]
      exact ⟨h, hword.symm, rfl⟩
    | word hstart =>
      rw [mark?_other (notMem_of_class (by decide) hstart), hspace, hstart] at hc
      cases hc
      exact ⟨h.withWord (some [c]), rfl, rfl⟩
  case openBrace | closeBrace | semicolon =>
    rintro rfl
    cases hc
  case openParen =>
    rintro rfl
    cases hc
    exact ⟨h.openParen, hplain, rfl⟩
  case closeParen =>
    rintro rfl
    by_cases hdepth : k.depth = 0
    · simp [Skim.mark?, hdepth] at hc
    · simp [Skim.mark?, hdepth] at hc
      subst hc
      exact ⟨h.closeParen hdepth, hplain, rfl⟩
  case comma =>
    rintro rfl
    rw [hsame (by decide) (by decide)]
    exact ⟨h.comma, hplain, rfl⟩
  case equals =>
    rintro rfl
    cases hc
    exact ⟨h.equals, hplain, rfl⟩
  case sign =>
    rintro (rfl | rfl | rfl)
    all_goals
      rw [hsame (by decide) (by decide)]
      exact ⟨h.pushMark (by decide) (by decide), hplain, rfl⟩
  case ampersand =>
    rintro rfl
    rw [hsame (by decide) (by decide)]
    exact ⟨h.pushFragment (by decide) (by decide) true, hplain, rfl⟩
  case colon =>
    rintro rfl
    rw [hsame (by decide) (by decide)]
    exact ⟨h.pushIfStarted (by decide) (by decide) true, hplain, rfl⟩
  case other =>
    intro hmarks hstart
    have hsub : ['\x7b', '\x7d', ';', '(', ')', '='] ⊆ marks := by decide
    rw [hsame (fun hd => hmarks (hsub hd)) hstart]
    exact ⟨h, hplain, rfl⟩

/-- A character of the code that continues no word. -/
theorem plain_of_holds (h : k.Holds tree s.scope) (hmode : s.mode = .plain)
    (hword : k.word = none) (hc : k.mark? c = some k') :
    k'.Holds tree (s.plain c).scope ∧ (s.plain c).mode.word? = k'.word ∧
      (s.plain c).enclosing = s.enclosing := by
  have hplain : s.mode.word? = k.word := by rw [hmode, hword]; rfl
  have hsame : k.mark? c = some k → k' = k := fun he => Option.some.inj (hc.symm.trans he)
  refine plain_cases c ?newline ?space ?slash ?mark
  case newline =>
    rintro rfl
    rw [hsame (mark?_eq_some (by decide) (.inl (by decide)))]
    exact ⟨(h.withJoinable false).endLine, hplain, rfl⟩
  case space =>
    intro hspace
    rw [hsame (mark?_eq_some (notMem_of_class (by decide) hspace) (.inl hspace))]
    exact ⟨h, hplain, rfl⟩
  case slash =>
    rintro rfl
    rw [hsame (mark?_eq_some (by decide) (.inr (by decide)))]
    exact ⟨h, hword.symm, rfl⟩
  case mark =>
    exact fun hspace _ => mark_of_holds (s := s.update (·.update ({ · with joinable := false })))
      (h.withJoinable false) hmode hword hspace hc

theorem begun_plain (hmode : s.mode = .plain) (c : Char) : (s.plain c).mode.Begun := by
  have hnext := s.mode_plain c
  rw [hmode] at hnext
  exact hnext.begun

theorem begun_step (h : s.mode.Begun) (c : Char) : (s.step c).mode.Begun := by
  obtain ⟨a, ha, hstep⟩ := s.step_acts c
  rw [hstep]
  cases a with
  | turn mode =>
    cases ha with
    | part hmode =>
      rw [hmode] at h
      obtain ⟨d, hd, hw⟩ := h
      exact ⟨d, by rw [List.getLast?_cons, hd]; rfl, hw⟩
    | outside _ hnext => exact hnext.begun
  | code =>
    cases ha with | code hmode
    exact begun_plain hmode c
  | slash | word text => exact begun_plain rfl c
  | blockComment text | lineComment text | directive | literal text => exact trivial

/-! ### Comments, literals and directives -/

theorem Skims.word_ne (h : s.Skims tree k) {word : List Char} (hw : k.word = some word) :
    String.ofList word.reverse ≠ "=" ∧ String.ofList word.reverse ≠ "(" := by
  have hmode : s.mode = .word word := by
    have hword := h.word
    rw [hw] at hword
    unfold Mode.word? at hword
    split at hword
    · rename_i text hmode
      rw [hmode, Option.some.inj hword]
    · cases hword
  have hbegun := h.begun
  rw [hmode] at hbegun
  obtain ⟨c, hc, hstart⟩ := hbegun
  exact ⟨ofList_reverse_ne hc hstart (by decide), ofList_reverse_ne hc hstart (by decide)⟩

/-- What a character does to the scope and to the word being read. -/
theorem Skims.holds_step (h : s.Skims tree k) (hroot : tree.kind = .root)
    (hc : k.read? c = some k') :
    k'.Holds tree (s.step c).scope ∧ (s.step c).mode.word? = k'.word ∧
      (s.step c).enclosing = s.enclosing := by
  have hmarks := @Skims.word_ne _ _ _ h
  obtain ⟨⟨hlayer, -⟩, hbegun, hword, henclosing, hscope⟩ := h
  unfold Skim.read? at hc
  obtain ⟨m, hm, rfl⟩ := Option.map_eq_some_iff.mp hc
  have hwith : ∀ t : State, m.Holds tree t.scope ∧ t.mode.word? = m.word ∧
      t.enclosing = s.enclosing →
      { m with layer := k.layer.next c : Skim }.Holds tree t.scope ∧ t.mode.word? = m.word ∧
        t.enclosing = s.enclosing := fun t ht => ⟨ht.1.withLayer _, ht.2⟩
  apply hwith
  obtain ⟨a, ha, hstep⟩ := s.step_acts c
  rw [← hlayer, ha.isCode] at hm
  rw [hstep]
  -- outside of the code nothing is skimmed
  have hout : a.isCode = false → m = k ∧ m.word = none := by
    intro hcode
    rw [hcode, if_neg Bool.false_ne_true] at hm
    refine ⟨(Option.some.inj hm).symm, ?_⟩
    rw [← Option.some.inj hm, ← hword]
    refine Mode.word?_eq_none fun hl => ?_
    rw [← ha.isCode, hl] at hcode
    cases hcode
  have hcode : a.isCode = true → s.mode.word? = none → k.word = none ∧ k.mark? c = some m := by
    intro hcode hnone
    have hk : k.word = none := hword.symm.trans hnone
    rw [if_pos hcode, hk] at hm
    exact ⟨hk, hm⟩
  have hparens : s.scope.context.parens = k.depth := by
    obtain ⟨run, runComment, comment, joinable, he, -⟩ := hscope
    rw [he]
    rfl
  cases a with
  | turn mode =>
    cases ha with
    | @part text hmode hpart =>
      have hk : k.word = some text := by rw [← hword, hmode]; rfl
      rw [if_pos (by rfl), hk] at hm
      dsimp only at hm
      rw [if_pos (hparens ▸ hpart)] at hm
      cases hm
      exact ⟨(hscope.withWord _).withLayer _, rfl, rfl⟩
    | outside _ hnext =>
      obtain ⟨rfl, hnone⟩ := hout (beq_eq_false_iff_ne.mpr hnext.layer_ne)
      exact ⟨hscope, (Mode.word?_eq_none hnext.layer_ne).trans hnone.symm, rfl⟩
  | code =>
    cases ha with | code hmode
    obtain ⟨hk, hm⟩ := hcode rfl (by rw [hmode]; rfl)
    exact plain_of_holds hscope hmode hk hm
  | slash =>
    cases ha with | slash hmode
    obtain ⟨hk, hm⟩ := hcode rfl (by rw [hmode]; rfl)
    exact plain_of_holds (s := (s.enter .plain).update _)
      ((hscope.withJoinable false).pushMark (by decide : "/" ≠ "=") (by decide)) rfl hk hm
  | word text =>
    cases ha with | word hmode hpart
    have hk : k.word = some text := by rw [← hword, hmode]; rfl
    rw [if_pos (by rfl), hk] at hm
    rw [hparens] at hpart
    dsimp only at hm
    rw [if_neg (by simp [hpart])] at hm
    split at hm
    · rename_i hends
      split at hm
      · rename_i hleft
        exact plain_of_holds (s := (s.enter .plain).update _)
          (hscope.forget hroot (String.ofList text.reverse) hends hleft) rfl rfl hm
      · cases hm
    · rename_i hends
      split at hm
      · cases hm
      · rename_i htypedef
        obtain ⟨hequals, hparen⟩ := hmarks hk
        have hsemicolon : c ≠ ';' := by
          rintro rfl
          cases hm
        have hw := hscope.word hroot hk hequals hparen (by simpa using hends) hsemicolon
          (by simpa using htypedef)
        have hend : k.endWord.word = none := by
          rw [Skim.endWord_of_word hk]
        exact plain_of_holds (s := (s.enter .plain).update _) hw rfl hend hm
  | blockComment text =>
    obtain ⟨rfl, hnone⟩ := hout rfl
    exact ⟨hscope.takeComment hroot _ _, hnone.symm, rfl⟩
  | lineComment text =>
    obtain ⟨rfl, hnone⟩ := hout rfl
    exact ⟨(hscope.takeComment hroot _ _).endLine, hnone.symm, rfl⟩
  | directive =>
    obtain ⟨rfl, hnone⟩ := hout rfl
    exact ⟨hscope.endLine, hnone.symm, rfl⟩
  | literal text =>
    cases ha with | literal hmode
    obtain ⟨rfl, hnone⟩ := hout rfl
    -- a literal is longer than any mark
    have hne : text ≠ [] := by
      rw [hmode] at hbegun
      exact hbegun
    have hlong : ∀ d : Char, String.ofList (c :: text).reverse ≠ String.ofList [d] := by
      intro d he
      have hlength := congrArg List.length (String.ofList_injective he)
      exact hne (by simpa using hlength)
    exact ⟨hscope.pushIfStarted (hlong '=') (hlong '(') true, hnone.symm, rfl⟩

theorem Skims.step (h : s.Skims tree k) (hroot : tree.kind = .root) (hc : k.read? c = some k') :
    (s.step c).Skims tree k' := by
  obtain ⟨hscope, hword, henclosing⟩ := h.holds_step hroot hc
  obtain ⟨m, -, rfl⟩ := Option.map_eq_some_iff.mp hc
  exact ⟨layer_step h.reads c, begun_step h.begun c, hword, henclosing.trans h.enclosing, hscope⟩

theorem Skims.run (h : s.Skims tree k) (hroot : tree.kind = .root) {text : List Char}
    (ht : text.foldlM Skim.read? k = some k') : (s.run text).Skims tree k' :=
  run_beside (P := fun k s => Skims s tree k) (fun h hc => h.step hroot hc) h ht

end State

end HeaderDocs.Scan
