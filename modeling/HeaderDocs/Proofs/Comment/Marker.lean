import HeaderDocs.Comment.Markup
import HeaderDocs.Comment.Normal
import HeaderDocs.Proofs.Text.Occurrence
import HeaderDocs.Proofs.Text.Trim

/-!
# The marker that hides declarations

Reading the conventions of a comment cuts its text at both ends and takes the backslash out of an
escaped end of comment. The marker holds neither a backslash nor a slash, so none comes into being.

* `isPrivate_of_normalize`: a comment that hides what it describes holds the marker as it is written.
-/
namespace HeaderDocs

open HeaderDocs.Text

namespace Text

/-! ## Occurrences -/

theorem breakOn?_eq_none {pattern cs : List Char} (h : breakOn? pattern cs = none) :
    ¬ pattern <:+: cs := by
  induction cs with
  | nil =>
    unfold breakOn? at h
    split at h
    · cases h
    · rename_i hp
      rw [List.infix_nil]
      exact fun he => hp (by rw [he]; rfl)
  | cons c cs ih =>
    unfold breakOn? at h
    split at h
    · cases h
    · rename_i hp
      rw [List.infix_cons_iff]
      rintro (⟨rest, hrest⟩ | hin)
      · exact absurd (List.isPrefixOf?_eq_some_iff_append_eq.mpr hrest) (by rw [hp]; exact nofun)
      · exact ih (Option.map_eq_none_iff.mp h) hin

theorem contains_iff_isInfix {pattern cs : List Char} :
    contains pattern cs = true ↔ pattern <:+: cs := by
  unfold contains
  cases hb : breakOn? pattern cs with
  | none => simpa using breakOn?_eq_none hb
  | some parts => simpa using infix_of_breakOn? hb

theorem suffix_of_breakOn? {pattern cs before after : List Char}
    (h : breakOn? pattern cs = some (before, after)) : after <:+ cs :=
  ⟨before ++ pattern, (eq_of_breakOn? h).symm⟩

end Text

namespace Comment

theorem skipDash_suffix (cs : List Char) : skipDash cs <:+ cs := by
  unfold skipDash
  split
  · rename_i rest hrest
    exact ((trimStart_suffix rest).trans (List.suffix_cons _ _)).trans
      (hrest ▸ trimStart_suffix cs)
  · exact trimStart_suffix cs

theorem trimStars_isInfix (cs : List Char) : trimStars cs <:+: cs := by
  have hstart : trimStart (cs.dropWhile (· == '*')) <:+ cs :=
    (trimStart_suffix _).trans (List.dropWhile_suffix _)
  have hend := (trimEnd_isPrefix _).trans
    (dropEndWhile_isPrefix (· == '*') (trimStart (cs.dropWhile (· == '*'))))
  exact hend.isInfix.trans hstart.isInfix

theorem afterQuotedName?_suffix {cs rest : List Char} (h : afterQuotedName? cs = some rest) :
    rest <:+ cs := by
  unfold afterQuotedName? at h
  split at h
  · obtain ⟨⟨before, after⟩, hb, rfl⟩ := Option.map_eq_some_iff.mp h
    exact ((skipDash_suffix after).trans (suffix_of_breakOn? hb)).trans (List.suffix_cons _ _)
  · cases h

theorem direction?_suffix {cs rest : List Char} {direction : String}
    (h : direction? cs = some (direction, rest)) : rest <:+ cs := by
  unfold direction? at h
  split at h
  · cases h
    exact (skipDash_suffix _).trans (List.suffix_append ['I', ' '] _)
  · cases h
    exact (skipDash_suffix _).trans (List.suffix_append ['O', ' '] _)
  · cases h
    exact (skipDash_suffix _).trans (List.suffix_append ['I', 'O', ' '] _)
  · cases h

/-- The text of a comment is a part of it, but for escaped slashes. -/
theorem text_normalize_isInfix (raw : String) :
    (normalize raw).text.toList <:+: replace ['\\', '/'] ['/'] raw.toList := by
  unfold normalize
  dsimp only
  split
  · rename_i rest hrest
    rw [String.toList_ofList]
    exact (trimStars_isInfix rest).trans (afterQuotedName?_suffix hrest).isInfix
  · split
    · rename_i direction rest hrest
      rw [String.toList_ofList]
      exact (trimStars_isInfix rest).trans (direction?_suffix hrest).isInfix
    · rw [String.toList_ofList]
      exact trimStars_isInfix _

/-! ## Escaped slashes -/

/-- The rule that takes the backslash from an escaped slash. -/
def unescape : Rule := fun _ rest =>
  if ['\\', '/'].isPrefixOf rest then some (['/'], ['\\', '/'].length) else none

variable {pattern : List Char}

theorem prefix_of_prefix_unescape (hslash : '/' ∉ pattern) {b : Option Char} {cs : List Char}
    (h : pattern <+: substituteFrom unescape b 0 cs) : pattern <+: cs := by
  induction cs generalizing pattern b with
  | nil => exact h
  | cons c cs ih =>
    cases pattern with
    | nil => exact List.nil_prefix
    | cons p pattern =>
      simp only [substituteFrom, unescape] at h
      split at h
      · rename_i new length hnew
        -- what stands here is a slash, which the pattern lacks
        split at hnew
        · cases hnew
          rw [List.singleton_append, List.cons_prefix_cons] at h
          exact absurd (h.1 ▸ List.mem_cons_self) hslash
        · cases hnew
      · rw [List.cons_prefix_cons] at h ⊢
        exact ⟨h.1, ih (fun hm => hslash (List.mem_cons_of_mem _ hm)) h.2⟩

/-- A pattern without slashes occurs in an unescaped text only where it was before. -/
theorem infix_of_infix_unescape (hslash : '/' ∉ pattern) {b : Option Char} {skip : Nat}
    {cs : List Char} (h : pattern <:+: substituteFrom unescape b skip cs) : pattern <:+: cs := by
  induction cs generalizing b skip with
  | nil => cases skip <;> exact h
  | cons c cs ih =>
    cases skip with
    | succ skip => exact List.infix_cons (ih h)
    | zero =>
      have hstart := @prefix_of_prefix_unescape _ hslash b (c :: cs)
      simp only [substituteFrom] at h hstart
      split at h
      · rename_i new length hnew
        rw [hnew] at hstart
        obtain ⟨-, hnew⟩ := Option.ite_none_right_eq_some.mp hnew
        cases hnew
        rw [List.singleton_append, List.infix_cons_iff] at h
        rcases h with h | h
        · exact (hstart h).isInfix
        · exact List.infix_cons (ih h)
      · rename_i hnone
        rw [hnone] at hstart
        rw [List.infix_cons_iff] at h
        rcases h with h | h
        · exact (hstart h).isInfix
        · exact List.infix_cons (ih h)

/-- The marker is not made by reading the conventions of a comment. -/
theorem isPrivate_of_normalize {raw : String} (h : isPrivate (normalize raw).text = true) :
    isPrivate raw = true := by
  have hin := (contains_iff_isInfix.mp h).trans (text_normalize_isInfix raw)
  exact contains_iff_isInfix.mpr (infix_of_infix_unescape (by decide) hin)

end Comment

end HeaderDocs
