import HeaderDocs.Proofs.Scan.Spelling

/-!
# Names

An identifier of any script may begin with an underscore. The scanner reads it as one word, whatever
ends it.

A run is written out as the text of its first fragment and what `Run.tailText` makes of the others,
so a run that grows is a text that grows.

* `State.run_name`: a name and the character that ends it.
* `Run.text_append`: the text of a run in two parts.
-/
namespace HeaderDocs.Scan

open HeaderDocs.Text

/-! ## Identifiers -/

/-- Whether the characters are a letter or an underscore, and then letters, digits and
underscores. -/
def isName : List Char → Bool
  | [] => false
  | c :: cs => (isLetter c || c == '_') && cs.all isWordChar

structure Name where
  text : String
  valid : isName text.toList = true
deriving DecidableEq

namespace Name

theorem chars (w : Name) : w.text.toList ≠ [] ∧ ∀ c ∈ w.text.toList, isWordChar c = true := by
  have h := w.valid
  cases htext : w.text.toList with
  | nil =>
    rw [htext] at h
    cases h
  | cons c cs =>
    simp only [htext, isName, Bool.and_eq_true, Bool.or_eq_true, List.all_eq_true] at h
    refine ⟨List.cons_ne_nil _ _, fun d hd => ?_⟩
    obtain rfl | hd := List.mem_cons.mp hd
    · unfold isWordChar
      rcases h.1 with hc | hc
      · rw [isAlphanumeric_of_isLetter hc, Bool.true_or]
      · rw [hc, Bool.or_true]
    · exact h.2 d hd

theorem text_ne_empty (w : Name) : w.text ≠ "" := fun he => w.chars.1 (by rw [he]; rfl)

theorem notMem (w : Name) {c : Char} (hc : isWordChar c = false) : c ∉ w.text.toList := by
  intro hm
  rw [w.chars.2 c hm] at hc
  cases hc

theorem text_ne (w : Name) {text : String} (h : text.toList.head?.any (!isWordChar ·) = true) :
    w.text ≠ text := by
  rintro rfl
  obtain ⟨hne, hchars⟩ := w.chars
  rw [List.head?_eq_some_head hne, Option.any_some, hchars _ (List.head_mem hne)] at h
  cases h

theorem isRecordable_iff (w : Name) :
    Node.isRecordable w.text = true ↔ w.text.toList.head? ≠ some '_' := by
  obtain ⟨c, cs, htext⟩ := List.exists_cons_of_ne_nil w.chars.1
  simp [Node.isRecordable, htext]

theorem withoutColons_text (w : Name) : withoutColons w.text = w.text := by
  obtain ⟨cs, c, htext⟩ := List.eq_nil_or_concat w.text.toList |>.resolve_left w.chars.1
  have hc : (c == ':') = false := by
    rw [beq_eq_false_iff_ne]
    rintro rfl
    exact w.notMem (by decide : isWordChar ':' = false) (by simp [htext])
  refine String.toList_inj.mp ?_
  rw [withoutColons, toList_onChars, htext, List.concat_eq_append, dropEndWhile_concat, hc]
  rfl

theorem withoutColons_concat (w : Name) : withoutColons (w.text ++ ":") = w.text := by
  refine String.toList_inj.mp ?_
  have hname := congrArg String.toList w.withoutColons_text
  rw [withoutColons, toList_onChars] at hname ⊢
  rw [String.toList_append, show ":".toList = [':'] from rfl, dropEndWhile_concat]
  exact hname

end Name

theorem State.run_name {s : OpenScope} {c : Context} (hc : c.joinable = false) (w : Name) {d : Char}
    (hd : State.isWordPart c.parens d = false) (rest : List Char) :
    (State.reading s c).run (w.text.toList ++ d :: rest) =
      (((State.reading s c).update (·.word w.text d)).plain d).run rest :=
  State.run_wordChars hc w.chars.1 w.chars.2 hd rest

/-! ## Runs as texts -/

namespace Run

/-- The text of fragments that stand behind others. -/
def tailText (run : Run) : String := (run.map Fragment.toNode).foldr Node.joinText.separated ""

@[simp] theorem tailText_nil : tailText [] = "" := rfl

theorem tailText_cons (f : Fragment) (run : Run) :
    tailText (f :: run) = (if f.spaced then " " else "") ++ f.text ++ tailText run := rfl

theorem tailText_append (first second : Run) :
    tailText (first ++ second) = tailText first ++ tailText second := by
  induction first with
  | nil => simp
  | cons f first ih => simp only [List.cons_append, tailText_cons, ih, String.append_assoc]

theorem text_cons (f : Fragment) (run : Run) : text (f :: run) = f.text ++ tailText run := rfl

theorem text_append {first : Run} (h : first ≠ []) (second : Run) :
    text (first ++ second) = text first ++ tailText second := by
  obtain ⟨f, first, rfl⟩ := List.exists_cons_of_ne_nil h
  rw [List.cons_append, text_cons, text_cons, tailText_append, String.append_assoc]

theorem text_closeUp (run : Run) : run.closeUp.text = run.text := by
  cases run <;> rfl

theorem text_ne_empty {run : Run} (hne : run ≠ []) (h : ∀ f ∈ run, f.text ≠ "") : run.text ≠ "" := by
  obtain ⟨f, run, rfl⟩ := List.exists_cons_of_ne_nil hne
  rw [text_cons]
  exact fun he => h f (List.mem_cons_self ..) (String.append_eq_empty_iff.mp he).1

/-- A run is written out with nothing but spaces between its fragments. -/
theorem filter_text {p : Char → Bool} (hp : p ' ' = false) (run : Run) :
    run.text.toList.filter p = (run.texts.flatMap String.toList).filter p := by
  have htail : ∀ run : Run, run.tailText.toList.filter p =
      (run.texts.flatMap String.toList).filter p := fun run => by
    induction run with
    | nil => rfl
    | cons f run ih =>
      have hgap : (if f.spaced then " " else "").toList.filter p = [] := by
        cases f.spaced <;> simp [hp]
      simp only [tailText_cons, String.toList_append, List.filter_append, hgap, ih, texts, List.map_cons,
        List.flatMap_cons, List.nil_append]
  cases run with
  | nil => rfl
  | cons f run =>
    simp only [text_cons, String.toList_append, List.filter_append, htail, texts, List.map_cons,
      List.flatMap_cons]

def EndsInName (run : Run) : Prop :=
  ∃ before, ∃ w : Name, ∃ spaced, run = before ++ [⟨w.text, spaced⟩]

theorem endsInName_concat (run : Run) (w : Name) (spaced : Bool) :
    EndsInName (run ++ [⟨w.text, spaced⟩]) := ⟨run, w, spaced, rfl⟩

variable {run : Run}

theorem EndsInName.pushWord (h : EndsInName run) (word : String) :
    run.pushWord word = run ++ [⟨word, true⟩] := by
  obtain ⟨before, w, spaced, rfl⟩ := h
  exact pushWord_behind before spaced w.chars.1 w.chars.2 word

theorem EndsInName.pushMark (h : EndsInName run) (mark : String) :
    run.pushMark mark = run ++ [⟨mark, true⟩] := by
  obtain ⟨before, w, spaced, rfl⟩ := h
  exact pushMark_behind before spaced w.chars.1 w.chars.2 mark

end Run

end HeaderDocs.Scan
