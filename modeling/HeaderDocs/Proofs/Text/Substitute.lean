import HeaderDocs.Proofs.Text.Trim
import HeaderDocs.Text.Substitute

/-!
# Replacements, step by step

A rule is tried at one place after the other. Where it does not match, the text is passed over; what a
match covers is skipped.

* `substituteFrom_pass`: a text in which the rule is tried in vain.
* `substituteFrom_match`: a match, and the text after it.
* `substituteFrom_concat`: a text with one more character.
* `mem_substituteFrom`: what the result is made of.
-/
namespace HeaderDocs.Text

variable {rule : Rule}

/-- The character before what follows a text. -/
def lastOr (before : Option Char) (cs : List Char) : Option Char := cs.getLast?.or before

@[simp] theorem lastOr_nil (before : Option Char) : lastOr before [] = before := rfl

theorem lastOr_cons (before : Option Char) (c : Char) (cs : List Char) :
    lastOr before (c :: cs) = lastOr (some c) cs := by
  rw [lastOr, lastOr, List.getLast?_cons]
  cases cs.getLast? <;> rfl

theorem lastOr_append (before : Option Char) (cs ds : List Char) :
    lastOr before (cs ++ ds) = lastOr (lastOr before cs) ds := by
  rw [lastOr, lastOr, lastOr, List.getLast?_append, Option.or_assoc]

theorem lastOr_concat (before : Option Char) (cs : List Char) (c : Char) :
    lastOr before (cs ++ [c]) = some c := by
  rw [lastOr_append, lastOr_cons, lastOr_nil]

theorem substituteFrom_skip (before : Option Char) (cs rest : List Char) :
    substituteFrom rule before cs.length (cs ++ rest) =
      substituteFrom rule (lastOr before cs) 0 rest := by
  induction cs generalizing before with
  | nil => rfl
  | cons c cs ih => rw [List.length_cons, List.cons_append, substituteFrom, ih, lastOr_cons]

/-- A text is passed over where the rule matches at none of its characters. -/
theorem substituteFrom_pass {p : Char → Prop}
    (hrule : ∀ before c cs, p c → rule before (c :: cs) = none) {cs : List Char}
    (h : ∀ c ∈ cs, p c) (before : Option Char) (rest : List Char) :
    substituteFrom rule before 0 (cs ++ rest) =
      cs ++ substituteFrom rule (lastOr before cs) 0 rest := by
  induction cs generalizing before with
  | nil => rfl
  | cons c cs ih =>
    rw [List.cons_append, substituteFrom, hrule _ _ _ (h c (List.mem_cons_self ..)),
      ih (fun d hd => h d (List.mem_cons_of_mem _ hd)), lastOr_cons, List.cons_append]

theorem substituteFrom_match {before : Option Char} {c : Char} {cs rest new : List Char}
    (h : rule before (c :: cs ++ rest) = some (new, cs.length + 1)) :
    substituteFrom rule before 0 (c :: cs ++ rest) =
      new ++ substituteFrom rule (lastOr (some c) cs) 0 rest := by
  rw [List.cons_append] at h ⊢
  rw [substituteFrom, h]
  dsimp only
  rw [Nat.add_sub_cancel, substituteFrom_skip]

/-- A character behind a text is kept, if it does not change what is found in the text. -/
theorem substituteFrom_concat {rule : Rule} {d : Char} (hend : ∀ before, rule before [d] = none)
    {cs : List Char} {before : Option Char} {skip : Nat} (hskip : skip ≤ cs.length)
    (h : ∀ done c rest, cs = done ++ c :: rest →
      rule (lastOr before done) (c :: rest ++ [d]) = rule (lastOr before done) (c :: rest) ∧
      ∀ new length, rule (lastOr before done) (c :: rest) = some (new, length) →
        length ≤ (c :: rest).length) :
    substituteFrom rule before skip (cs ++ [d]) = substituteFrom rule before skip cs ++ [d] := by
  induction cs generalizing before skip with
  | nil =>
    obtain rfl : skip = 0 := by simpa using hskip
    simp [substituteFrom, hend]
  | cons c cs ih =>
    have hrest : ∀ done e rest, cs = done ++ e :: rest →
        rule (lastOr (some c) done) (e :: rest ++ [d]) = rule (lastOr (some c) done) (e :: rest) ∧
        ∀ new length, rule (lastOr (some c) done) (e :: rest) = some (new, length) →
          length ≤ (e :: rest).length := by
      intro done e rest he
      have := h (c :: done) e rest (by rw [he, List.cons_append])
      rwa [lastOr_cons] at this
    obtain ⟨hhere, hlength⟩ := h [] c cs rfl
    rw [lastOr_nil, List.cons_append] at hhere
    rw [lastOr_nil] at hlength
    rw [List.length_cons] at hskip
    cases skip with
    | succ skip =>
      rw [List.cons_append, substituteFrom, substituteFrom, ih (by omega) hrest]
    | zero =>
      rw [List.cons_append, substituteFrom, substituteFrom, hhere]
      cases hrule : rule before (c :: cs) with
      | none => rw [ih (Nat.zero_le _) hrest, List.cons_append]
      | some found =>
        obtain ⟨new, length⟩ := found
        have hle := hlength new length hrule
        rw [List.length_cons] at hle
        dsimp only
        rw [ih (by omega) hrest, List.append_assoc]

/-- The result holds characters of the text, and such as the rule writes. -/
theorem mem_substituteFrom {p : Char → Prop}
    (hrule : ∀ before cs new length, rule before cs = some (new, length) → ∀ c ∈ new, p c)
    {before : Option Char} {skip : Nat} {cs : List Char} {c : Char}
    (h : c ∈ substituteFrom rule before skip cs) : c ∈ cs ∨ p c := by
  induction cs generalizing before skip with
  | nil =>
    cases skip <;> cases h
  | cons d cs ih =>
    cases skip with
    | succ skip => exact (ih h).imp_left (List.mem_cons_of_mem _)
    | zero =>
      unfold substituteFrom at h
      split at h
      · rename_i new length hmatch
        rcases List.mem_append.mp h with h | h
        · exact .inr (hrule _ _ _ _ hmatch c h)
        · exact (ih h).imp_left (List.mem_cons_of_mem _)
      · rcases List.mem_cons.mp h with rfl | h
        · exact .inl (List.mem_cons_self ..)
        · exact (ih h).imp_left (List.mem_cons_of_mem _)

end HeaderDocs.Text
