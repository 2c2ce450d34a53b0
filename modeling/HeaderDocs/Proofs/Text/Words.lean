import HeaderDocs.Proofs.Text.Newline
import HeaderDocs.Text.Space
import Mathlib.Data.List.Basic

/-!
# Words are found again

A text that is put together from words, with a space before each but the first, has just these
words.

* `splitWhere_intercalate`: pieces are found again.
* `mem_words`: what the words of a text are made of.
* `words_joined`: the words of a text that was put together from words.
* `SingleSpaced.append`: two texts with nothing but single spaces between words.
* `words_normalizeNewlines`: line ends may be written in any way between words.
-/
namespace HeaderDocs.Text

variable {p : Char → Bool}

theorem splitWhere_ne_nil (cs : List Char) : splitWhere p cs ≠ [] := by
  cases cs with
  | nil => exact List.cons_ne_nil _ _
  | cons c cs =>
    rw [splitWhere]
    split
    · exact List.cons_ne_nil _ _
    · split <;> exact List.cons_ne_nil _ _

/-- No piece goes on after a character that separates. -/
theorem splitWhere_append {d : Char} (hd : p d = true) (cs rest : List Char) :
    splitWhere p (cs ++ d :: rest) = splitWhere p cs ++ splitWhere p rest := by
  induction cs with
  | nil => simp [splitWhere, hd]
  | cons c cs ih =>
    rw [List.cons_append, splitWhere, splitWhere, ih]
    cases hpieces : splitWhere p cs with
    | nil => exact absurd hpieces (splitWhere_ne_nil cs)
    | cons piece pieces => split <;> rfl

theorem splitWhere_of_none {w : List Char} (hw : ∀ c ∈ w, p c = false) : splitWhere p w = [w] := by
  induction w with
  | nil => rfl
  | cons c w ih =>
    have hc := hw c (List.mem_cons_self ..)
    rw [splitWhere, ih fun e he => hw e (List.mem_cons_of_mem _ he)]
    simp [hc]

/-- Pieces with a separating character between them are found again. -/
theorem splitWhere_intercalate {d : Char} (hd : p d = true) {ws : List (List Char)} (hne : ws ≠ [])
    (h : ∀ w ∈ ws, ∀ c ∈ w, p c = false) : splitWhere p ([d].intercalate ws) = ws := by
  induction ws with
  | nil => exact absurd rfl hne
  | cons w ws ih =>
    have hw := splitWhere_of_none (h w (List.mem_cons_self ..))
    by_cases hws : ws = []
    · rw [hws, List.intercalate_singleton, hw]
    · rw [List.intercalate_cons_of_ne_nil hws, List.append_assoc, List.singleton_append,
        splitWhere_append hd, hw, ih hws fun v hv => h v (List.mem_cons_of_mem _ hv)]
      rfl

/-- The pieces of a text hold its characters, and none that separates. -/
theorem mem_splitWhere {w cs : List Char} (h : w ∈ splitWhere p cs) :
    ∀ c ∈ w, p c = false ∧ c ∈ cs := by
  induction cs generalizing w with
  | nil =>
    rw [List.mem_singleton.mp h]
    exact nofun
  | cons d cs ih =>
    intro c hc
    rw [splitWhere] at h
    cases hd : p d with
    | true =>
      rw [if_pos hd] at h
      rcases List.mem_cons.mp h with rfl | h
      · cases hc
      · exact ⟨(ih h c hc).1, List.mem_cons_of_mem _ (ih h c hc).2⟩
    | false =>
      simp only [hd, Bool.false_eq_true, if_false] at h
      cases hpieces : splitWhere p cs with
      | nil =>
        rw [hpieces] at h
        cases List.mem_singleton.mp h
        cases List.mem_singleton.mp hc
        exact ⟨hd, List.mem_cons_self ..⟩
      | cons piece pieces =>
        rw [hpieces] at h ih
        rcases List.mem_cons.mp h with rfl | h
        · rcases List.mem_cons.mp hc with rfl | hc
          · exact ⟨hd, List.mem_cons_self ..⟩
          · have := ih (List.mem_cons_self ..) c hc
            exact ⟨this.1, List.mem_cons_of_mem _ this.2⟩
        · have := ih (List.mem_cons_of_mem _ h) c hc
          exact ⟨this.1, List.mem_cons_of_mem _ this.2⟩

/-- The words of a text that is cut at a white space. -/
theorem words_append {c : Char} (hc : isSpace c = true) (cs rest : List Char) :
    words (cs ++ c :: rest) = words cs ++ words rest := by
  rw [words, splitWhere_append hc, List.filter_append]
  rfl

theorem words_cons {c : Char} (hc : isSpace c = true) (cs : List Char) : words (c :: cs) = words cs :=
  words_append hc [] cs

/-- A word is not empty, holds no white space, and comes from the text. -/
theorem mem_words {w cs : List Char} (h : w ∈ words cs) :
    w ≠ [] ∧ ∀ c ∈ w, isSpace c = false ∧ c ∈ cs := by
  obtain ⟨hpiece, hne⟩ := List.mem_filter.mp h
  refine ⟨?_, mem_splitWhere hpiece⟩
  rintro rfl
  cases hne

/-- Words put together again. -/
def joined : List (List Char) → List Char
  | [] => []
  | w :: ws => w ++ ws.flatMap (' ' :: ·)

theorem words_joined {ws : List (List Char)} (h : ∀ w ∈ ws, w ≠ [] ∧ ∀ c ∈ w, isSpace c = false) :
    words (joined ws) = ws := by
  cases ws with
  | nil => rfl
  | cons w ws =>
    have hsplit : splitWhere isSpace (w ++ ws.flatMap (' ' :: ·)) = w :: ws := by
      induction ws generalizing w with
      | nil =>
        rw [List.flatMap_nil, List.append_nil]
        exact splitWhere_of_none (h w (List.mem_cons_self ..)).2
      | cons v ws ih =>
        rw [List.flatMap_cons, List.cons_append, splitWhere_append rfl,
          splitWhere_of_none (h w (List.mem_cons_self ..)).2,
          ih v fun u hu => h u (List.mem_cons_of_mem _ hu), List.singleton_append]
    rw [words, joined, hsplit, List.filter_eq_self]
    intro v hv
    simpa using (h v hv).1

theorem words_joined_words (cs : List Char) : words (joined (words cs)) = words cs :=
  words_joined fun _ hw => ⟨(mem_words hw).1, fun c hc => ((mem_words hw).2 c hc).1⟩

/-! ## Single spaces -/

/-- The white space of a text is one space between each two words. -/
def SingleSpaced (cs : List Char) : Prop := joined (words cs) = cs

instance (cs : List Char) : Decidable (SingleSpaced cs) := inferInstanceAs (Decidable (_ = _))

theorem singleSpaced_joined {ws : List (List Char)}
    (h : ∀ w ∈ ws, w ≠ [] ∧ ∀ c ∈ w, isSpace c = false) : SingleSpaced (joined ws) := by
  rw [SingleSpaced, words_joined h]

theorem singleSpaced_of_noSpace {cs : List Char} (h : ∀ c ∈ cs, isSpace c = false) :
    SingleSpaced cs := by
  by_cases hne : cs = []
  · subst hne
    rfl
  · have hjoined : joined [cs] = cs := List.append_nil cs
    exact hjoined ▸ singleSpaced_joined fun w hw => List.mem_singleton.mp hw ▸ ⟨hne, h⟩

/-- The words of a text, and how it is put together from them. -/
theorem SingleSpaced.exists_words {cs : List Char} (h : SingleSpaced cs) :
    ∃ ws, (∀ w ∈ ws, w ≠ [] ∧ ∀ c ∈ w, isSpace c = false) ∧ cs = joined ws :=
  ⟨words cs, fun _ hw => ⟨(mem_words hw).1, fun c hc => ((mem_words hw).2 c hc).1⟩, h.symm⟩

theorem joined_append {ws vs : List (List Char)} (hws : ws ≠ []) (hvs : vs ≠ []) :
    joined (ws ++ vs) = joined ws ++ ' ' :: joined vs := by
  obtain ⟨w, ws, rfl⟩ := List.exists_cons_of_ne_nil hws
  obtain ⟨v, vs, rfl⟩ := List.exists_cons_of_ne_nil hvs
  simp [joined]

theorem joined_append_cons (ws vs : List (List Char)) (w v : List Char) :
    joined (ws ++ (w ++ v) :: vs) = joined (ws ++ [w]) ++ joined (v :: vs) := by
  cases ws <;> simp [joined]

theorem ne_nil_of_joined {ws : List (List Char)} (h : joined ws ≠ []) : ws ≠ [] := by
  rintro rfl
  exact h rfl

theorem SingleSpaced.append_space {cs ds : List Char} (hcs : SingleSpaced cs) (hds : SingleSpaced ds)
    (hc : cs ≠ []) (hd : ds ≠ []) : SingleSpaced (cs ++ ' ' :: ds) := by
  obtain ⟨ws, hws, rfl⟩ := hcs.exists_words
  obtain ⟨vs, hvs, rfl⟩ := hds.exists_words
  rw [← joined_append (ne_nil_of_joined hc) (ne_nil_of_joined hd)]
  exact singleSpaced_joined fun w hw => (List.mem_append.mp hw).elim (hws w) (hvs w)

/-- Two texts with nothing between them: the last word of the one goes on in the other. -/
theorem SingleSpaced.append {cs ds : List Char} (hcs : SingleSpaced cs) (hds : SingleSpaced ds) :
    SingleSpaced (cs ++ ds) := by
  by_cases hc : cs = []
  · exact hc ▸ hds
  by_cases hd : ds = []
  · rw [hd, List.append_nil]
    exact hcs
  obtain ⟨ws, hws, rfl⟩ := hcs.exists_words
  obtain ⟨vs, hvs, rfl⟩ := hds.exists_words
  obtain ⟨v, vs, rfl⟩ := List.exists_cons_of_ne_nil (ne_nil_of_joined hd)
  obtain ⟨init, w, rfl⟩ : ∃ init w, ws = init ++ [w] :=
    ⟨_, _, (List.dropLast_concat_getLast (ne_nil_of_joined hc)).symm⟩
  obtain ⟨hw, hwords⟩ := hws w (by simp)
  obtain ⟨-, hvwords⟩ := hvs v (by simp)
  rw [← joined_append_cons]
  refine singleSpaced_joined fun u hu => ?_
  rcases List.mem_append.mp hu with hu | hu
  · exact hws u (List.mem_append_left _ hu)
  · rcases List.mem_cons.mp hu with rfl | hu
    · exact ⟨List.append_ne_nil_of_left_ne_nil hw _,
        fun c hc => (List.mem_append.mp hc).elim (hwords c) (hvwords c)⟩
    · exact hvs u (List.mem_cons_of_mem _ hu)

/-! ## Line ends between words -/

/-- Two texts with the same pieces, but for empty ones after the first. -/
def SamePieces (cs ds : List Char) : Prop :=
  ∃ piece ps qs, splitWhere isSpace cs = piece :: ps ∧ splitWhere isSpace ds = piece :: qs ∧
    ps.filter (!·.isEmpty) = qs.filter (!·.isEmpty)

theorem SamePieces.words_eq {cs ds : List Char} (h : SamePieces cs ds) : words cs = words ds := by
  obtain ⟨piece, ps, qs, hps, hqs, he⟩ := h
  rw [words, words, hps, hqs, List.filter_cons, List.filter_cons, he]

/-- White space separates, however it is written. -/
theorem SamePieces.cons_space {cs ds : List Char} (h : SamePieces cs ds) {c d : Char}
    (hc : isSpace c = true) (hd : isSpace d = true) : SamePieces (c :: cs) (d :: ds) := by
  refine ⟨[], splitWhere isSpace cs, splitWhere isSpace ds, ?_, ?_, h.words_eq⟩
  · rw [splitWhere, if_pos hc]
  · rw [splitWhere, if_pos hd]

theorem SamePieces.cons {cs ds : List Char} (h : SamePieces cs ds) {c : Char}
    (hc : isSpace c = false) : SamePieces (c :: cs) (c :: ds) := by
  obtain ⟨piece, ps, qs, hps, hqs, he⟩ := h
  refine ⟨c :: piece, ps, qs, ?_, ?_, he⟩
  · rw [splitWhere, hps]
    simp [hc]
  · rw [splitWhere, hqs]
    simp [hc]

theorem samePieces_normalizeNewlines (cs : List Char) : SamePieces (normalizeNewlines cs) cs := by
  induction cs using normalizeNewlines.induct with
  | case1 => exact ⟨[], [], [], rfl, rfl, rfl⟩
  | case2 cs ih =>
    -- one separator takes the place of two
    refine ⟨[], splitWhere isSpace (normalizeNewlines cs), splitWhere isSpace ('\n' :: cs), ?_, ?_, ?_⟩
    · rfl
    · rfl
    · exact ih.words_eq
  | case3 cs hcs ih =>
    rw [normalizeNewlines]
    · exact ih.cons_space rfl rfl
    · exact hcs
  | case4 c cs _ hc ih =>
    rw [normalizeNewlines_cons fun he => hc he]
    cases hspace : isSpace c with
    | true => exact ih.cons_space hspace hspace
    | false => exact ih.cons hspace

/-- Rewriting line ends does not change the words of a text. -/
theorem words_normalizeNewlines (cs : List Char) : words (normalizeNewlines cs) = words cs :=
  (samePieces_normalizeNewlines cs).words_eq

end HeaderDocs.Text
