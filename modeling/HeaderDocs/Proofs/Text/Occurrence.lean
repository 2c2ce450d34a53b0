import HeaderDocs.Text.Substitute
import Mathlib.Data.List.Basic

/-!
# Occurrences of a pattern

A text is broken where a pattern occurs in it, so a text without the pattern stays whole.

* `eq_of_breakOn?`: the parts that a text is broken into.
* `contains_eq_false`: a text that lacks a character of the pattern.
-/
namespace HeaderDocs.Text

/-- A text is what stands before the occurrence, the pattern, and what stands after it. -/
theorem eq_of_breakOn? {pattern cs before after : List Char}
    (h : breakOn? pattern cs = some (before, after)) : cs = before ++ pattern ++ after := by
  induction cs generalizing before with
  | nil =>
    unfold breakOn? at h
    split at h
    · rename_i hp
      cases h
      simpa using hp
    · cases h
  | cons c cs ih =>
    unfold breakOn? at h
    split at h
    · rename_i rest hrest
      cases h
      exact (List.isPrefixOf?_eq_some_iff_append_eq.mp hrest).symm
    · obtain ⟨⟨before', after'⟩, hb, he⟩ := Option.map_eq_some_iff.mp h
      cases he
      rw [ih hb]
      rfl

theorem infix_of_breakOn? {pattern cs : List Char} {parts : List Char × List Char}
    (h : breakOn? pattern cs = some parts) : pattern <:+: cs :=
  ⟨parts.1, parts.2, (eq_of_breakOn? h).symm⟩

theorem breakOn?_singleton {q : Char} {cs : List Char} (h : q ∉ cs) (rest : List Char) :
    breakOn? [q] (cs ++ q :: rest) = some (cs, rest) := by
  induction cs with
  | nil => simp [breakOn?, List.isPrefixOf?]
  | cons c cs ih =>
    rw [List.mem_cons, not_or] at h
    obtain ⟨hc, hcs⟩ := h
    have hne : (q == c) = false := beq_eq_false_iff_ne.mpr hc
    simp only [List.cons_append, breakOn?, List.isPrefixOf?, hne, Bool.false_eq_true, if_false,
      ih hcs, Option.map_some]

theorem not_mem_of_breakOn? {q : Char} {cs before after : List Char}
    (h : breakOn? [q] cs = some (before, after)) : q ∉ before := by
  induction cs generalizing before with
  | nil => cases h
  | cons c cs ih =>
    unfold breakOn? at h
    split at h
    · cases h
      exact List.not_mem_nil
    · rename_i hne
      obtain ⟨⟨before', after'⟩, hb, he⟩ := Option.map_eq_some_iff.mp h
      cases he
      rw [List.mem_cons, not_or]
      refine ⟨?_, ih hb⟩
      rintro rfl
      simp [List.isPrefixOf?] at hne

/-- A text that lacks a character of the pattern does not contain it. -/
theorem contains_eq_false {pattern : List Char} {c : Char} (hc : c ∈ pattern) {cs : List Char}
    (h : c ∉ cs) : contains pattern cs = false := by
  unfold contains
  cases hb : breakOn? pattern cs with
  | none => rfl
  | some parts => exact absurd ((infix_of_breakOn? hb).subset hc) h

end HeaderDocs.Text
