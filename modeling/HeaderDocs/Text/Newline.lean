/-!
# Line ends

Texts come with the line ends of three traditions: LF, CR LF and CR. `normalizeNewlines` writes all
of them as LF.

* `normalizeNewlines_eq_self`: a text without CR is left alone.
-/
namespace HeaderDocs.Text

/-- Writes every line end, CR LF and a lone CR included, as a line feed. -/
def normalizeNewlines : List Char → List Char
  | [] => []
  | '\r' :: '\n' :: cs => '\n' :: normalizeNewlines cs
  | '\r' :: cs => '\n' :: normalizeNewlines cs
  | c :: cs => c :: normalizeNewlines cs

theorem normalizeNewlines_eq_self {cs : List Char} (h : '\r' ∉ cs) : normalizeNewlines cs = cs := by
  induction cs with
  | nil => rfl
  | cons c cs ih =>
    simp only [List.mem_cons, not_or] at h
    rw [normalizeNewlines, ih h.2]
    · rintro rest rfl
      exact absurd rfl h.1
    · intro hc
      exact absurd hc.symm h.1

end HeaderDocs.Text
