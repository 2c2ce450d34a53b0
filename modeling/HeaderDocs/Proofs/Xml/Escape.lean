import HeaderDocs.Proofs.Text.Occurrence
import HeaderDocs.Xml.Entity
import Mathlib.Data.List.Basic

/-!
# Escapes are read back

A text is written with references in place of the characters that markup uses, and an attribute
value with references in place of line ends and tabs as well. What is written for one character is
read as that character, whatever follows it.

* `readPiece?_escapeAttrChar`, `value?_attrPiece`: the characters of attribute values.
* `readQuoted?_escapeAttr`: whole attribute values.
-/
namespace HeaderDocs.Xml

open HeaderDocs.Text

/-! ## Texts as lists of characters -/

theorem toList_foldl_append (f : Char → String) (s : String) :
    (s.foldl (fun acc c => acc ++ f c) "").toList = s.toList.flatMap fun c => (f c).toList := by
  have hacc : ∀ (cs : List Char) (acc : String),
      (cs.foldl (fun acc c => acc ++ f c) acc).toList =
        acc.toList ++ cs.flatMap fun c => (f c).toList := by
    intro cs
    induction cs with
    | nil => simp
    | cons c cs ih =>
      intro acc
      simp only [List.foldl_cons, ih, String.toList_append, List.flatMap_cons, List.append_assoc]
  rw [String.foldl_eq_foldl_toList, hacc]
  rfl

theorem toList_escapeText (s : String) :
    (escapeText s).toList = s.toList.flatMap fun c => (escapeTextChar c).toList :=
  toList_foldl_append escapeTextChar s

theorem toList_escapeAttr (s : String) :
    (escapeAttr s).toList = s.toList.flatMap fun c => (escapeAttrChar c).toList :=
  toList_foldl_append escapeAttrChar s

/-! ## Characters of attribute values -/

/-- What a character of an attribute value is read as before references are replaced. -/
def attrPiece : Char → Piece
  | '"' => .entity ['q', 'u', 'o', 't']
  | '&' => .entity ['a', 'm', 'p']
  | '<' => .entity ['l', 't']
  | '>' => .entity ['g', 't']
  | '\r' => .numbered '\r'
  | '\n' => .numbered '\n'
  | '\t' => .numbered '\t'
  | c => .literal c

theorem escapeAttrChar_cases {P : Char → Prop} (hquote : P '"') (hamp : P '&') (hlt : P '<')
    (hgt : P '>') (hcr : P '\r') (hlf : P '\n') (htab : P '\t')
    (hother : ∀ c : Char, c ≠ '"' → c ≠ '&' → c ≠ '<' → c ≠ '>' → c ≠ '\r' → c ≠ '\n' → c ≠ '\t' →
      (escapeAttrChar c).toList = [c] → attrPiece c = .literal c → P c) (c : Char) : P c := by
  by_cases h1 : c = '"'
  · exact h1 ▸ hquote
  by_cases h2 : c = '&'
  · exact h2 ▸ hamp
  by_cases h3 : c = '<'
  · exact h3 ▸ hlt
  by_cases h4 : c = '>'
  · exact h4 ▸ hgt
  by_cases h5 : c = '\r'
  · exact h5 ▸ hcr
  by_cases h6 : c = '\n'
  · exact h6 ▸ hlf
  by_cases h7 : c = '\t'
  · exact h7 ▸ htab
  have hescape : (escapeAttrChar c).toList = [c] := by
    unfold escapeAttrChar escapeTextChar
    split <;> first | contradiction | skip
    split <;> first | contradiction | exact String.toList_singleton c
  have hpiece : attrPiece c = .literal c := by
    unfold attrPiece
    split <;> first | contradiction | rfl
  exact hother c h1 h2 h3 h4 h5 h6 h7 hescape hpiece

theorem readPiece?_escapeAttrChar (c : Char) (rest : List Char) :
    readPiece? ((escapeAttrChar c).toList ++ rest) = some (.items [attrPiece c] rest) := by
  refine escapeAttrChar_cases (P := fun c =>
    readPiece? ((escapeAttrChar c).toList ++ rest) = some (.items [attrPiece c] rest))
    rfl rfl rfl rfl rfl rfl rfl ?_ c
  intro c _ hamp _ _ _ _ _ hescape hpiece
  rw [hescape, hpiece, List.singleton_append]
  unfold readPiece?
  split
  · rename_i h
    cases h
  · rename_i h
    exact absurd (List.cons.inj h).1 hamp
  · rename_i h
    cases h
    rfl

theorem value?_attrPiece (c : Char) (pieces : List Piece) :
    ({} : Entities).value? 0 (attrPiece c :: pieces) =
      (({} : Entities).value? 0 pieces).map (c :: ·) := by
  have hentity : ∀ (name : List Char) (d : Char), Entities.predefined? name = some d →
      ({} : Entities).value? 0 (.entity name :: pieces) =
        (({} : Entities).value? 0 pieces).map (d :: ·) := by
    intro name d hd
    have hvalue : ({} : Entities).entityValue? 0 name = some [d] := by
      rw [Entities.entityValue?, hd]
      rfl
    simp only [Entities.value?, hvalue, List.singleton_append]
  refine escapeAttrChar_cases (P := fun c =>
    ({} : Entities).value? 0 (attrPiece c :: pieces) =
      (({} : Entities).value? 0 pieces).map (c :: ·))
    (hentity _ _ rfl) (hentity _ _ rfl) (hentity _ _ rfl) (hentity _ _ rfl)
    (by simp only [attrPiece, Entities.value?]) (by simp only [attrPiece, Entities.value?])
    (by simp only [attrPiece, Entities.value?]) ?_ c
  intro c _ _ _ _ hcr hlf htab _ hpiece
  have hspace : Entities.valueChar c = c := by
    unfold Entities.valueChar
    split
    · rename_i h
      simp only [isSpace, Bool.or_eq_true, beq_iff_eq, hcr, hlf, htab, or_false] at h
      exact h.symm
    · rfl
  simp only [hpiece, Entities.value?, hspace]

/-- What is written for a character of an attribute value ends neither the value nor the tag, and
holds no line end that would be rewritten. -/
theorem mem_escapeAttrChar {c d : Char} (h : d ∈ (escapeAttrChar c).toList) :
    d ≠ '"' ∧ d ≠ '<' ∧ d ≠ '\r' := by
  have hall : (escapeAttrChar c).toList.all (fun d => d != '"' && d != '<' && d != '\r') = true := by
    refine escapeAttrChar_cases (P := fun c =>
      (escapeAttrChar c).toList.all (fun d => d != '"' && d != '<' && d != '\r') = true)
      rfl rfl rfl rfl rfl rfl rfl ?_ c
    intro c hquote _ hlt _ hcr _ _ hescape _
    simp [hescape, hquote, hlt, hcr]
  have hd := List.all_eq_true.mp hall d h
  simp only [Bool.and_eq_true, bne_iff_ne, ne_eq] at hd
  exact ⟨hd.1.1, hd.1.2, hd.2⟩

/-! ## Attribute values -/

theorem readPiece?_nil : readPiece? [] = some (.finish () []) := rfl

theorem escapeAttrChar_ne_nil (c : Char) : 0 < (escapeAttrChar c).toList.length :=
  escapeAttrChar_cases (P := fun c => 0 < (escapeAttrChar c).toList.length) (by decide) (by decide)
    (by decide) (by decide) (by decide) (by decide) (by decide)
    (fun _ _ _ _ _ _ _ _ h _ => by simp [h]) c

theorem pieces?_escapeAttr (cs : List Char) :
    pieces? (cs.flatMap fun c => (escapeAttrChar c).toList) = some (cs.map attrPiece) := by
  have hread : ∀ cs : List Char,
      readMany readPiece? (cs.flatMap fun c => (escapeAttrChar c).toList) =
        some (cs.map attrPiece, (), []) := by
    intro cs
    induction cs with
    | nil => exact readMany_finish readPiece?_nil
    | cons c cs ih =>
      rw [List.flatMap_cons, List.map_cons, ← List.singleton_append]
      refine readMany_items (readPiece?_escapeAttrChar c _) ?_ ih
      have := escapeAttrChar_ne_nil c
      rw [List.length_append]
      omega
  simp only [pieces?, hread, Option.map_some]

theorem value?_map_attrPiece (cs : List Char) :
    ({} : Entities).value? 0 (cs.map attrPiece) = some cs := by
  induction cs with
  | nil => simp only [List.map_nil, Entities.value?]
  | cons c cs ih => rw [List.map_cons, value?_attrPiece, ih, Option.map_some]

/-- An attribute value is read back as the pieces of its characters. -/
theorem readQuoted?_escapeAttr (value : String) (rest : List Char) :
    readQuoted? ('"' :: (escapeAttr value).toList ++ '"' :: rest) =
      some ((escapeAttr value).toList, rest) ∧
    (escapeAttr value).toList.contains '<' = false ∧
    pieces? (normalizeNewlines (escapeAttr value).toList) =
      some (value.toList.map attrPiece) := by
  have hmem : ∀ d ∈ (escapeAttr value).toList, d ≠ '"' ∧ d ≠ '<' ∧ d ≠ '\r' := by
    intro d hd
    rw [toList_escapeAttr] at hd
    obtain ⟨c, -, hc⟩ := List.mem_flatMap.mp hd
    exact mem_escapeAttrChar hc
  refine ⟨?_, ?_, ?_⟩
  · exact breakOn?_singleton (fun h => (hmem _ h).1 rfl) rest
  · rw [Bool.eq_false_iff, ne_eq, List.contains_iff_mem]
    exact fun h => (hmem _ h).2.1 rfl
  · rw [normalizeNewlines_eq_self fun h => (hmem _ h).2.2 rfl, toList_escapeAttr]
    exact pieces?_escapeAttr _

end HeaderDocs.Xml
