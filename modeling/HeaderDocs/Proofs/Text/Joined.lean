import HeaderDocs.Proofs.Text.Substitute

/-!
# Texts that are put together

Pieces are joined by a separator, in groups or all at once, and a separator that occurs in no piece can
be exchanged for another one.

* `mem_intercalate`: what a joined text is made of.
* `intercalate_flatten`: groups that are joined, and joined again.
* `replace_intercalate`: another separator.
* `replace_replace`: a pattern that is put back.
-/
namespace HeaderDocs.Text

theorem mem_intercalate {sep : String} {pieces : List String} {c : Char}
    (h : c ∈ (sep.intercalate pieces).toList) :
    c ∈ sep.toList ∨ ∃ piece ∈ pieces, c ∈ piece.toList := by
  induction pieces with
  | nil => cases h
  | cons piece pieces ih =>
    cases pieces with
    | nil => exact .inr ⟨piece, List.mem_cons_self .., by rwa [String.intercalate_singleton] at h⟩
    | cons next rest =>
      rw [String.intercalate_cons_cons, String.toList_append, String.toList_append, List.mem_append,
        List.mem_append] at h
      obtain (h | h) | h := h
      · exact .inr ⟨piece, List.mem_cons_self .., h⟩
      · exact .inl h
      · exact (ih h).imp_right fun ⟨other, hother, hc⟩ => ⟨other, List.mem_cons_of_mem _ hother, hc⟩

theorem intercalate_flatten (sep : String) {groups : List (List String)} (h : ∀ g ∈ groups, g ≠ []) :
    sep.intercalate (groups.map sep.intercalate) = sep.intercalate groups.flatten := by
  induction groups with
  | nil => rfl
  | cons group groups ih =>
    cases groups with
    | nil => simp
    | cons next rest =>
      have hrest : ∀ g ∈ next :: rest, g ≠ [] := fun g hg => h g (List.mem_cons_of_mem _ hg)
      have hflatten : (next :: rest).flatten ≠ [] := by
        rw [List.flatten_cons]
        exact List.append_ne_nil_of_left_ne_nil (hrest next (List.mem_cons_self ..)) _
      calc sep.intercalate ((group :: next :: rest).map sep.intercalate)
        _ = sep.intercalate group ++ sep ++ sep.intercalate ((next :: rest).map sep.intercalate) :=
          String.intercalate_cons_cons
        _ = sep.intercalate group ++ sep ++ sep.intercalate (next :: rest).flatten := by rw [ih hrest]
        _ = sep.intercalate (group ++ (next :: rest).flatten) :=
          (String.intercalate_append_of_ne_nil (h group (List.mem_cons_self ..)) hflatten).symm

theorem intercalate_append_flatten (sep : String) (pieces : List String) {groups : List (List String)}
    (h : ∀ g ∈ groups, g ≠ []) :
    sep.intercalate (pieces ++ groups.map sep.intercalate) =
      sep.intercalate (pieces ++ groups.flatten) := by
  have hgroups : ∀ g ∈ pieces.map ([·]) ++ groups, g ≠ [] := by
    intro g hg
    rcases List.mem_append.mp hg with hg | hg
    · obtain ⟨piece, -, rfl⟩ := List.mem_map.mp hg
      exact List.cons_ne_nil _ _
    · exact h g hg
  have hsingle : pieces.map (sep.intercalate ∘ ([·])) = pieces := by
    simp [Function.comp_def]
  have hall := intercalate_flatten sep hgroups
  rwa [List.map_append, List.map_map, hsingle, List.flatten_append, ← List.flatMap_def,
    List.flatMap_singleton'] at hall

/-! ## Another separator -/

theorem mem_replace {pattern new cs : List Char} {c : Char} (h : c ∈ replace pattern new cs) :
    c ∈ cs ∨ c ∈ new := by
  refine mem_substituteFrom (p := (· ∈ new)) (fun _ rest written _ hmatch d hd => ?_) h
  split at hmatch
  · cases hmatch
    exact hd
  · cases hmatch

variable {pattern new : List Char}

/-- What stands before a text does not matter to a rule that does not look at it. -/
theorem substituteFrom_congr_before {rule : Rule} (h : ∀ before before' cs, rule before cs = rule before' cs)
    (before before' : Option Char) (skip : Nat) (cs : List Char) :
    substituteFrom rule before skip cs = substituteFrom rule before' skip cs := by
  cases cs with
  | nil => cases skip <;> rfl
  | cons c cs =>
    cases skip with
    | succ skip => rfl
    | zero => rw [substituteFrom, substituteFrom, h before before']

theorem replace_append (hne : pattern ≠ []) (rest : List Char) :
    replace pattern new (pattern ++ rest) = new ++ replace pattern new rest := by
  obtain ⟨c, cs, rfl⟩ := List.exists_cons_of_ne_nil hne
  let rule : Rule := fun _ rest =>
    if (c :: cs).isPrefixOf rest then some (new, (c :: cs).length) else none
  have hmatch : substituteFrom rule none 0 (c :: cs ++ rest) =
      new ++ substituteFrom rule (lastOr (some c) cs) 0 rest :=
    substituteFrom_match (by simp [rule])
  exact hmatch.trans (congrArg (new ++ ·) (substituteFrom_congr_before (fun _ _ _ => rfl) _ _ _ _))

theorem replace_cons {c : Char} {cs : List Char} (h : ¬pattern <+: c :: cs) :
    replace pattern new (c :: cs) = c :: replace pattern new cs := by
  rw [replace, substitute, substituteFrom, if_neg (by simpa using h)]
  exact congrArg (c :: ·) (substituteFrom_congr_before (fun _ _ _ => rfl) _ _ _ _)

/-- A pattern that was replaced by a character which is not in the text is put back. -/
theorem replace_replace {mark : Char} (hne : pattern ≠ []) {cs : List Char} (h : mark ∉ cs) :
    replace [mark] pattern (replace pattern [mark] cs) = cs := by
  induction hlength : cs.length using Nat.strong_induction_on generalizing cs with
  | _ length ih =>
    by_cases hp : pattern <+: cs
    · obtain ⟨rest, rfl⟩ := hp
      have hlt : rest.length < length := by
        have := List.length_pos_iff.mpr hne
        rw [← hlength, List.length_append]
        omega
      rw [replace_append hne, replace_append (List.cons_ne_nil _ _),
        ih _ hlt (fun hm => h (List.mem_append_right _ hm)) rfl]
    · cases cs with
      | nil => rfl
      | cons c cs =>
        rw [List.mem_cons, not_or] at h
        have hmark : ¬[mark] <+: c :: replace pattern [mark] cs := by
          rw [List.cons_prefix_cons]
          exact fun hc => h.1 hc.1
        rw [replace_cons hp, replace_cons hmark, ih _ (by simp [← hlength]) h.2 rfl]

/-- A separator that begins with a character of no piece is found between the pieces only. -/
theorem replace_intercalate {first : Char} {sep : List Char} {pieces : List (List Char)}
    (h : ∀ piece ∈ pieces, first ∉ piece) :
    replace (first :: sep) new ((first :: sep).intercalate pieces) = new.intercalate pieces := by
  let rule : Rule := fun _ rest =>
    if (first :: sep).isPrefixOf rest then some (new, (first :: sep).length) else none
  have hpass : ∀ before c cs, c ≠ first → rule before (c :: cs) = none := by
    intro _ c cs hc
    simp [rule, hc.symm]
  have hmatch : ∀ before rest, substituteFrom rule before 0 (first :: sep ++ rest) =
      new ++ substituteFrom rule (lastOr (some first) sep) 0 rest := fun _ _ =>
    substituteFrom_match (by simp [rule])
  suffices hall : ∀ before, substituteFrom rule before 0 ((first :: sep).intercalate pieces) =
      new.intercalate pieces from hall none
  induction pieces with
  | nil => exact fun _ => rfl
  | cons piece pieces ih =>
    intro before
    have hpiece : ∀ c ∈ piece, c ≠ first := fun c hc he => h piece (List.mem_cons_self ..) (he ▸ hc)
    by_cases hne : pieces = []
    · subst hne
      have hend := substituteFrom_pass hpass hpiece before []
      rw [List.append_nil] at hend
      rw [List.intercalate_singleton, List.intercalate_singleton, hend]
      exact List.append_nil piece
    · rw [List.intercalate_cons_of_ne_nil hne, List.intercalate_cons_of_ne_nil hne, List.append_assoc,
        substituteFrom_pass hpass hpiece, hmatch, ih fun p hp => h p (List.mem_cons_of_mem _ hp),
        List.append_assoc]

end HeaderDocs.Text
