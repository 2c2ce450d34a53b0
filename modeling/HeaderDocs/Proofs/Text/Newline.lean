import HeaderDocs.Text.Newline

/-!
# Line ends, in parts

Where the line ends of a text are rewritten, its parts can be rewritten by themselves, as long as no
part ends between the two characters of a line end.

* `normalizeNewlines_append`: a text in two parts.
* `normalizeNewlines_idem`: rewriting line ends twice is rewriting them once.
-/
namespace HeaderDocs.Text

/-- A character that is part of no line end stays. -/
theorem normalizeNewlines_cons {c : Char} (h : c ≠ '\r') (cs : List Char) :
    normalizeNewlines (c :: cs) = c :: normalizeNewlines cs := by
  rw [normalizeNewlines]
  · rintro rest rfl
    exact absurd rfl h
  · exact h

/-- A carriage return takes a line feed that follows it along. -/
theorem normalizeNewlines_cr (cs : List Char) :
    normalizeNewlines ('\r' :: cs) =
      '\n' :: normalizeNewlines (if cs.head? = some '\n' then cs.tail else cs) := by
  cases cs with
  | nil => rfl
  | cons d cs =>
    by_cases hd : d = '\n'
    · subst hd
      rfl
    · rw [List.head?_cons, if_neg (by simpa using hd), normalizeNewlines]
      rintro rest he
      exact absurd (List.cons.inj he).1 hd

theorem normalizeNewlines_append (cs : List Char) {ds : List Char} (h : ds.head? ≠ some '\n') :
    normalizeNewlines (cs ++ ds) = normalizeNewlines cs ++ normalizeNewlines ds := by
  induction cs using normalizeNewlines.induct with
  | case1 => rfl
  | case2 cs ih => simp only [List.cons_append, normalizeNewlines, ih]
  | case3 cs hcs ih =>
    rw [List.cons_append, normalizeNewlines_cr, normalizeNewlines_cr]
    cases cs with
    | nil => simp [h, normalizeNewlines]
    | cons d cs =>
      have hd : d ≠ '\n' := by
        rintro rfl
        exact hcs cs rfl
      have hne : (some d = some '\n') = False := by simpa using hd
      simp only [List.cons_append, List.head?_cons, hne, if_false] at ih ⊢
      rw [ih]
  | case4 c cs _ hc ih =>
    have hne : c ≠ '\r' := fun he => hc he
    rw [List.cons_append, normalizeNewlines_cons hne, normalizeNewlines_cons hne, ih,
      List.cons_append]

theorem cr_notMem_normalizeNewlines (cs : List Char) : '\r' ∉ normalizeNewlines cs := by
  induction cs using normalizeNewlines.induct with
  | case1 => simp [normalizeNewlines]
  | case2 cs ih => simp [normalizeNewlines, ih]
  | case3 cs hcs ih =>
    rw [normalizeNewlines]
    · simp [ih]
    · exact hcs
  | case4 c cs _ hc ih =>
    have hne : c ≠ '\r' := fun he => hc he
    rw [normalizeNewlines_cons hne]
    simp [ih, Ne.symm hne]

theorem normalizeNewlines_idem (cs : List Char) :
    normalizeNewlines (normalizeNewlines cs) = normalizeNewlines cs :=
  normalizeNewlines_eq_self (cr_notMem_normalizeNewlines cs)

/-- Rewriting line ends brings no characters in but line feeds. -/
theorem mem_normalizeNewlines {c : Char} {cs : List Char} (h : c ∈ normalizeNewlines cs) :
    c = '\n' ∨ c ∈ cs := by
  induction cs using normalizeNewlines.induct with
  | case1 => exact .inr h
  | case2 cs ih =>
    rw [normalizeNewlines, List.mem_cons] at h
    rcases h with rfl | h
    · exact .inl rfl
    · rcases ih h with h | h
      · exact .inl h
      · exact .inr (List.mem_cons_of_mem _ (List.mem_cons_of_mem _ h))
  | case3 cs hcs ih =>
    rw [normalizeNewlines, List.mem_cons] at h
    · rcases h with rfl | h
      · exact .inl rfl
      · rcases ih h with h | h
        · exact .inl h
        · exact .inr (List.mem_cons_of_mem _ h)
    · exact hcs
  | case4 d cs _ hd ih =>
    have hne : d ≠ '\r' := fun he => hd he
    rw [normalizeNewlines_cons hne, List.mem_cons] at h
    rcases h with rfl | h
    · exact .inr (List.mem_cons_self ..)
    · rcases ih h with h | h
      · exact .inl h
      · exact .inr (List.mem_cons_of_mem _ h)

end HeaderDocs.Text
