import HeaderDocs.Text.CaseTable
import HeaderDocs.Text.Letter

/-!
# Lower case

`lower` maps a text to lower case as a whole, because two capitals need more than a table: a dotted
capital I becomes two characters, and the lower case of a capital sigma depends on its place in the
word. No other character comes from a dot or becomes one.

* `exists_lowerFrom_append`: the lower case of a text in two parts.
* `dot_mem_lowerFrom`: dots stay, and no other character becomes a dot.
* `lowerFrom_congr`: without capital sigmas it does not matter what stands before a text.
* `sigma_mem_lowerFrom`: with one, the lower case holds a sigma.
-/
namespace HeaderDocs.Text

def inRun (n : Nat) : Nat × Nat × Nat × Int → Bool
  | (first, last, step, _) => first ≤ n && n ≤ last && (n - first) % step == 0

/-- The lower case of a character that has a single one; other characters stay. -/
def lowerChar (c : Char) : Char :=
  if c.toNat < 128 then if 'A' ≤ c && c ≤ 'Z' then Char.ofNat (c.toNat + 32) else c
  else
    match capitalRuns.find? (inRun c.toNat) with
    | some (_, _, _, shift) => Char.ofNat ((c.toNat : Int) + shift).toNat
    | none => c

/-- Whether the first character that counts for the case of the word has case. -/
def startsCased (cs : List Char) : Bool :=
  match cs.dropWhile fun c => inRanges caseIgnorableRanges c.toNat with
  | [] => false
  | c :: _ => inRanges casedRanges c.toNat

/-- Lower case of a text whose beginning, read backwards, is `before`. -/
def lowerFrom (before : List Char) : List Char → List Char
  | [] => []
  | c :: cs =>
    let lowered :=
      if c == 'Σ' then [if startsCased before && !startsCased cs then 'ς' else 'σ']
      else if c == 'İ' then ['i', '\u0307']
      else [lowerChar c]
    lowered ++ lowerFrom (c :: before) cs

/-- Lower case of a text. A sigma that ends a word of at least two letters is a final sigma. -/
def lower (cs : List Char) : List Char := lowerFrom [] cs

def lowered (s : String) : String := String.ofList (lower s.toList)

variable {before cs : List Char} {c : Char}

/-- The lower case of the second part of a text ends that of the text. -/
theorem exists_lowerFrom_append (before cs rest : List Char) :
    ∃ start, lowerFrom before (cs ++ rest) = start ++ lowerFrom (cs.reverse ++ before) rest := by
  induction cs generalizing before with
  | nil => exact ⟨[], rfl⟩
  | cons c cs ih =>
    obtain ⟨start, hstart⟩ := ih (c :: before)
    obtain ⟨lowered, hlowered⟩ : ∃ lowered, lowerFrom before (c :: (cs ++ rest)) =
        lowered ++ lowerFrom (c :: before) (cs ++ rest) := ⟨_, rfl⟩
    refine ⟨lowered ++ start, ?_⟩
    rw [List.cons_append, hlowered, hstart, List.append_assoc, List.reverse_cons, List.append_assoc,
      List.singleton_append]

/-! ## Dots -/

theorem eq_of_ofNat_eq_dot {n : Nat} (h : Char.ofNat n = '.') : n = 46 := by
  rw [Char.ofNat] at h
  by_cases hn : n.isValidChar
  · rw [dif_pos hn] at h
    exact congrArg Char.toNat h
  · rw [dif_neg hn] at h
    cases h

/-- No capital has a lower case as far down as a dot. -/
theorem capitalRuns_above : ∀ run ∈ capitalRuns, 46 < (run.1 : Int) + run.2.2.2 := by
  decide +kernel

theorem lowerChar_eq_dot (h : lowerChar c = '.') : c = '.' := by
  unfold lowerChar at h
  split at h
  · split at h
    · rename_i hcapital
      have hn := eq_of_ofNat_eq_dot h
      simp only [Bool.and_eq_true, decide_eq_true_eq] at hcapital
      have hA : 65 ≤ c.toNat := hcapital.1
      omega
    · exact h
  · split at h
    · rename_i first last step shift hrun
      have habove := capitalRuns_above _ (List.mem_of_find?_eq_some hrun)
      have hin := List.find?_some hrun
      have hn := eq_of_ofNat_eq_dot h
      simp only [inRun, Bool.and_eq_true, decide_eq_true_eq] at hin
      dsimp only at habove
      omega
    · exact h

theorem dot_mem_lowerFrom : '.' ∈ lowerFrom before cs ↔ '.' ∈ cs := by
  induction cs generalizing before with
  | nil => exact Iff.rfl
  | cons c cs ih =>
    rw [lowerFrom, List.mem_append, ih, List.mem_cons]
    refine or_congr_left ?_
    split
    · rename_i hc
      rw [eq_of_beq hc]
      split <;> decide
    split
    · rename_i hc
      rw [eq_of_beq hc]
      decide
    · rw [List.mem_singleton]
      refine ⟨fun h => (lowerChar_eq_dot h.symm).symm, ?_⟩
      rintro rfl
      decide

/-! ## Sigmas -/

/-- Without capital sigmas it does not matter what stands before a text. -/
theorem lowerFrom_congr (h : 'Σ' ∉ cs) (before other : List Char) :
    lowerFrom before cs = lowerFrom other cs := by
  induction cs generalizing before other with
  | nil => rfl
  | cons c cs ih =>
    have hc : (c == 'Σ') = false := beq_eq_false_iff_ne.mpr (List.ne_of_not_mem_cons h).symm
    rw [lowerFrom, lowerFrom, hc, ih (List.not_mem_of_not_mem_cons h)]
    rfl

theorem sigma_mem_lowerFrom (h : 'Σ' ∈ cs) (before : List Char) :
    'σ' ∈ lowerFrom before cs ∨ 'ς' ∈ lowerFrom before cs := by
  induction cs generalizing before with
  | nil => cases h
  | cons c cs ih =>
    rw [lowerFrom, List.mem_append, List.mem_append]
    rcases List.mem_cons.mp h with rfl | h
    · by_cases hfinal : (startsCased before && !startsCased cs) = true
      · simp [hfinal]
      · simp [hfinal]
    · exact (ih h _).imp .inr .inr

end HeaderDocs.Text
