import HeaderDocs.Text.Space
import Mathlib.Data.List.Basic
import Mathlib.Data.List.TakeWhile
import Mathlib.Tactic.Conv

/-!
# The ends of a text

Taking characters off the ends of a text leaves a part of it, and nothing is lost but characters of
the kind that is taken off.

* `dropEndWhile_append`: what is taken off may stand in two parts.
* `trim_append`, `count_trim`: white space before a text does not count, and other characters stay.
-/
namespace HeaderDocs.Text

variable {p : Char → Bool}

/-- A run of characters ends at the first character of another kind. -/
theorem takeWhile_append_cons {cs : List Char} {d : Char} (hcs : ∀ c ∈ cs, p c = true)
    (hd : p d = false) (rest : List Char) : (cs ++ d :: rest).takeWhile p = cs := by
  rw [List.takeWhile_append_of_pos hcs, List.takeWhile_cons_of_neg (by rw [hd]; decide),
    List.append_nil]

/-! ## What is taken off -/

theorem dropEndWhile_append {end_ : List Char} (h : ∀ c ∈ end_, p c = true) (cs : List Char) :
    dropEndWhile p (cs ++ end_) = dropEndWhile p cs := by
  unfold dropEndWhile
  rw [List.reverse_append, List.dropWhile_append_of_pos fun c hc => h c (List.mem_reverse.mp hc)]

theorem dropEndWhile_eq_self {cs : List Char} (h : ∀ c ∈ cs.getLast?, p c = false) :
    dropEndWhile p cs = cs := by
  rcases List.eq_nil_or_concat' cs with rfl | ⟨init, c, rfl⟩
  · rfl
  · rw [dropEndWhile_concat, h c (by simp), if_neg Bool.false_ne_true]

theorem exists_append_dropEndWhile (p : Char → Bool) (cs : List Char) :
    ∃ end_, (∀ c ∈ end_, p c = true) ∧ cs = dropEndWhile p cs ++ end_ := by
  refine ⟨(cs.reverse.takeWhile p).reverse, fun c hc => ?_, ?_⟩
  · exact List.mem_takeWhile_imp (List.mem_reverse.mp hc)
  · rw [dropEndWhile, ← List.reverse_append, List.takeWhile_append_dropWhile, List.reverse_reverse]

/-! ## What is left -/

/-- What is left ends in a character of another kind. -/
theorem dropEndWhile_eq_concat {cs : List Char} (h : dropEndWhile p cs ≠ []) :
    ∃ init c, dropEndWhile p cs = init ++ [c] ∧ p c = false := by
  have hne : cs.reverse.dropWhile p ≠ [] := fun he => h (by rw [dropEndWhile, he]; rfl)
  obtain ⟨c, rest, hcons⟩ := List.exists_cons_of_ne_nil hne
  refine ⟨rest.reverse, c, by rw [dropEndWhile, hcons, List.reverse_cons], ?_⟩
  have hhead := List.head_dropWhile_not p hne
  simpa [hcons] using hhead

theorem dropEndWhile_isPrefix (p : Char → Bool) (cs : List Char) : dropEndWhile p cs <+: cs :=
  let ⟨end_, _, h⟩ := exists_append_dropEndWhile p cs
  ⟨end_, h.symm⟩

theorem trimStart_suffix (cs : List Char) : trimStart cs <:+ cs := List.dropWhile_suffix _

theorem trimEnd_isPrefix (cs : List Char) : trimEnd cs <+: cs := dropEndWhile_isPrefix _ cs

theorem trim_append {space : List Char} (h : ∀ c ∈ space, isSpace c = true) (cs : List Char) :
    trim (space ++ cs) = trim cs := by
  rw [trim, trimStart, List.dropWhile_append_of_pos h]
  rfl

theorem trim_eq_nil {space : List Char} (h : ∀ c ∈ space, isSpace c = true) : trim space = [] := by
  rw [← List.append_nil space, trim_append h]
  rfl

theorem count_dropEndWhile {c : Char} (hc : p c = false) (cs : List Char) :
    (dropEndWhile p cs).count c = cs.count c := by
  obtain ⟨end_, hend, he⟩ := exists_append_dropEndWhile p cs
  have hnone : end_.count c = 0 :=
    List.count_eq_zero.mpr fun hm => by rw [hend c hm] at hc; cases hc
  conv_rhs => rw [he, List.count_append, hnone, Nat.add_zero]

/-- Trimming takes away white space only. -/
theorem count_trim {c : Char} (hc : isSpace c = false) (cs : List Char) :
    (trim cs).count c = cs.count c := by
  have hnone : (cs.takeWhile isSpace).count c = 0 :=
    List.count_eq_zero.mpr fun hm => by rw [List.mem_takeWhile_imp hm] at hc; cases hc
  rw [trim, trimEnd, count_dropEndWhile hc, trimStart]
  conv_rhs => rw [← List.takeWhile_append_dropWhile (p := isSpace) (l := cs), List.count_append,
    hnone, Nat.zero_add]

end HeaderDocs.Text
