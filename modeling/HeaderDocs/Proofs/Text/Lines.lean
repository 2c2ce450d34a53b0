import HeaderDocs.Proofs.Text.Words
import Mathlib.Data.List.Basic

/-!
# Lines

A text is its lines with line feeds between them.

* `lines_intercalate`, `intercalate_lines`: lines are put together and found again.
* `intercalate_append`: lines before other lines end in a line feed each.
-/
namespace HeaderDocs.Text

theorem lines_ne_nil (cs : List Char) : lines cs ≠ [] := splitWhere_ne_nil cs

theorem newline_not_mem {cs line : List Char} (h : line ∈ lines cs) : '\n' ∉ line := fun hm => by
  have hne := (mem_splitWhere h _ hm).1
  cases hne

theorem lines_intercalate {ls : List (List Char)} (hne : ls ≠ []) (h : ∀ line ∈ ls, '\n' ∉ line) :
    lines (['\n'].intercalate ls) = ls :=
  splitWhere_intercalate rfl hne fun line hline _ hc =>
    beq_eq_false_iff_ne.mpr fun he => h line hline (he ▸ hc)

theorem intercalate_lines (cs : List Char) : ['\n'].intercalate (lines cs) = cs := by
  induction cs with
  | nil => rfl
  | cons c cs ih =>
    rw [lines, splitWhere]
    cases hc : c == '\n' with
    | true =>
      have hne : splitWhere (· == '\n') cs ≠ [] := splitWhere_ne_nil cs
      rw [if_pos rfl, List.intercalate_cons_of_ne_nil hne, eq_of_beq hc]
      exact congrArg ('\n' :: ·) ih
    | false =>
      rw [if_neg Bool.false_ne_true]
      rw [lines] at ih
      cases hpieces : splitWhere (· == '\n') cs with
      | nil => exact absurd hpieces (splitWhere_ne_nil cs)
      | cons piece pieces =>
        rw [hpieces] at ih
        rw [← ih]
        cases pieces <;> simp

theorem lines_concat (cs : List Char) : lines (cs ++ ['\n']) = lines cs ++ [[]] :=
  splitWhere_append rfl cs []

theorem intercalate_concat {ls : List (List Char)} (hne : ls ≠ []) :
    ['\n'].intercalate (ls ++ [[]]) = ['\n'].intercalate ls ++ ['\n'] := by
  induction ls with
  | nil => exact absurd rfl hne
  | cons line ls ih =>
    by_cases hls : ls = []
    · subst hls
      simp
    · rw [List.cons_append, List.intercalate_cons_of_ne_nil (by simp), ih hls,
        List.intercalate_cons_of_ne_nil hls]
      simp

theorem intercalate_cons_append (start line : List Char) (ls : List (List Char)) :
    ['\n'].intercalate ((start ++ line) :: ls) = start ++ ['\n'].intercalate (line :: ls) := by
  cases ls <;> simp

/-! ## Lines that end -/

/-- The text of lines with a line feed behind each. -/
def unlines (ls : List (List Char)) : List Char := ls.flatMap (· ++ ['\n'])

@[simp] theorem unlines_nil : unlines [] = [] := rfl

@[simp] theorem unlines_cons (line : List Char) (ls : List (List Char)) :
    unlines (line :: ls) = line ++ '\n' :: unlines ls := by
  simp [unlines]

@[simp] theorem unlines_append (ls more : List (List Char)) :
    unlines (ls ++ more) = unlines ls ++ unlines more := List.flatMap_append

theorem intercalate_append (done : List (List Char)) {ls : List (List Char)} (hne : ls ≠ []) :
    ['\n'].intercalate (done ++ ls) = unlines done ++ ['\n'].intercalate ls := by
  induction done with
  | nil => rfl
  | cons line done ih =>
    rw [List.cons_append, List.intercalate_cons_of_ne_nil (List.append_ne_nil_of_right_ne_nil _ hne),
      ih, unlines_cons]
    simp

end HeaderDocs.Text
