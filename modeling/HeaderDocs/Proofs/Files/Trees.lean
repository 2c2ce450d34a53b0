import HeaderDocs.Files.Trees
import HeaderDocs.Proofs.Files.Rooted
import HeaderDocs.Proofs.Files.Store
import HeaderDocs.Proofs.Text.Utf8
import HeaderDocs.Proofs.Tree.Canon
import HeaderDocs.Proofs.Xml.LineEnds

/-!
# Trees in files

A tree that was saved in a file is loaded from there as what is left of it (`Node.canon`), and can
be saved there again. A text that starts with a number sign, as reference pages do, is no tree. Where a
path name leads to a file, all that it leads through are directories, and a tree can be saved in the
place of the file without making any.

* `saveTree_eq_none`: where a tree is saved.
* `loadTree_of_read`: a saved tree is loaded.
* `loadTree_numberSign`: a page is not.
* `isDirectory_of_leading`: what a path name leads through is a directory.
* `saveTree_of_read`: saving a tree over a file never fails, and changes nothing else.
-/
namespace HeaderDocs

open HeaderDocs.Text

/-! ## Texts that are no documents -/

/-- Content that starts with a number sign has text outside of elements. -/
theorem Xml.tokens?_numberSign {cs : List Char} {tokens : List Xml.Token}
    (h : Xml.tokens? ('#' :: cs) = some tokens) :
    ∃ text more, tokens = .text ('#' :: text) true :: more := by
  obtain ⟨⟨found, last, rest⟩, hfound, rfl⟩ := Option.map_eq_some_iff.mp h
  have htake : ('#' :: cs).takeWhile (fun c => c != '<' && c != '&') =
      '#' :: cs.takeWhile (fun c => c != '<' && c != '&') := by
    rw [List.takeWhile_cons_of_pos (by decide)]
  have hread : Xml.readToken? ('#' :: cs) = Xml.readText? ('#' :: cs) := rfl
  unfold readMany readWithin at hfound
  rw [hread, Xml.readText?] at hfound
  dsimp only at hfound
  rw [htake, normalizeNewlines_cons (by decide)] at hfound
  cases hcontains : contains [']', ']', '>'] ('#' :: cs.takeWhile fun c => c != '<' && c != '&') with
  | true =>
    rw [hcontains, if_pos rfl] at hfound
    cases hfound
  | false =>
    rw [hcontains, if_neg (by decide)] at hfound
    obtain ⟨⟨more, last', rest'⟩, -, he⟩ := Option.map_eq_some_iff.mp hfound
    obtain ⟨rfl, -⟩ := Prod.mk.inj he
    exact ⟨_, more, rfl⟩

theorem Xml.parse?_numberSign (cs : List Char) : Xml.parse? (String.ofList ('#' :: cs)) = none := by
  have hmark : Xml.withoutMark ('#' :: cs) = '#' :: cs := rfl
  have hprolog : Xml.readProlog? ('#' :: cs) = some ({}, '#' :: cs) := by
    have hdeclaration : Xml.readKeyword? "<?xml" ('#' :: cs) = none := by
      rw [Xml.readKeyword?, show "<?xml".toList = ['<', '?', 'x', 'm', 'l'] from rfl]
      rfl
    have hdoctype : Xml.readKeyword? "<!DOCTYPE" ('#' :: cs) = none := by
      rw [Xml.readKeyword?,
        show "<!DOCTYPE".toList = ['<', '!', 'D', 'O', 'C', 'T', 'Y', 'P', 'E'] from rfl]
      rfl
    have hmisc : readMany Xml.readMisc? ('#' :: cs) = some ([], (), '#' :: cs) :=
      readMany_finish rfl
    unfold Xml.readProlog?
    simp only [hdeclaration, hmisc, hdoctype, Option.bind_eq_bind, Option.bind_some]
    rfl
  unfold Xml.parse?
  dsimp only
  rw [String.toList_ofList, hmark, hprolog]
  split
  · simp only [Option.bind_eq_bind, Option.bind_some]
    cases htokens : Xml.tokens? ('#' :: cs) with
    | none => rfl
    | some tokens =>
      obtain ⟨text, more, rfl⟩ := tokens?_numberSign htokens
      have hbuild : ∀ more, Xml.build? {} (.text ('#' :: text) true :: more) {} = none := by
        intro more
        rfl
      rw [Option.bind_some, List.length_nil, Xml.Entities.expand?]
      · cases ({} : Xml.Entities).expand? 0 more with
        | none => rfl
        | some more => rw [Option.map_some, Option.bind_some, hbuild]
      · intro name he
        cases he
  · rfl

namespace Store

variable {s s' s'' : Store} {path : String} {l : Location}

/-! ## Saving -/

theorem saveTree_eq_none {tree : Node} (h : s.saveTree path tree = (s', none)) :
    ∃ made l, s.Extends made ∧ made.LeadsToFile path l ∧
      s' = made.put l (.file (Utf8.encode tree.toXml.toList)) ∧
      ∀ s'', s'.Extends s'' → s''.LeadsToFile path l → ∀ other : Node,
        s''.saveTree path other = (s''.put l (.file (Utf8.encode other.toXml.toList)), none) := by
  unfold saveTree at h
  dsimp only at h
  split at h
  · cases h
  rename_i made hmade
  split at h
  · cases h
  rename_i saved hsaved
  cases h
  obtain ⟨l, hl, rfl⟩ := write_eq_ok hsaved
  have hput := extends_put_file hl.free (Utf8.encode tree.toXml.toList)
  split at hmade
  · rename_i hempty
    cases hmade
    refine ⟨s, l, .refl s, hl, rfl, fun s'' hextends hl'' other => ?_⟩
    unfold saveTree
    dsimp only
    rw [if_pos hempty]
    dsimp only
    rw [writeText, hl''.write]
  · rename_i hempty
    obtain ⟨hextends, hagain⟩ := makeDirectories_eq_none hmade
    refine ⟨made, l, hextends, hl, rfl, fun s'' hextends' hl'' other => ?_⟩
    unfold saveTree
    dsimp only
    rw [if_neg hempty, hagain s'' (hput.trans hextends')]
    dsimp only
    rw [writeText, hl''.write]

/-! ## Loading -/

theorem loadTree_of_read {tree : Node} (hroot : tree.kind = .root)
    (h : s.read path = .ok (Utf8.encode tree.toXml.toList)) :
    s.loadTree path = .ok tree.canon := by
  have hload : Node.ofXml (String.ofList (normalizeNewlines tree.toXml.toList)) = .ok tree.canon :=
    Node.ofXml_of_parse? hroot (Node.plain_toElement tree).parse?_normalizeNewlines
  unfold loadTree
  rw [h]
  dsimp only
  rw [Utf8.decode?_encode]
  dsimp only
  rw [hload]

theorem loadTree_numberSign {cs : List Char} (h : s.read path = .ok (Utf8.encode ('#' :: cs))) :
    s.loadTree path = .error (.notTree .malformed) := by
  have hload : Node.ofXml (String.ofList (normalizeNewlines ('#' :: cs))) = .error .malformed := by
    rw [normalizeNewlines_cons (by decide)]
    unfold Node.ofXml
    rw [Xml.parse?_numberSign]
  unfold loadTree
  rw [h]
  dsimp only
  rw [Utf8.decode?_encode]
  dsimp only
  rw [hload]

/-! ## Over a file that is there -/

open HeaderDocs.PathName

variable {outer : String} {m : Location} {bytes : List UInt8}

/-- The last part of the path name of a file is no dot. -/
theorem endsInDot_of_plain (h : needsDirectory path = false) : endsInDot path = false := by
  simp only [needsDirectory, Bool.or_eq_false_iff, beq_eq_false_iff_ne] at h
  rw [endsInDot, ← names_eq, names_dirName h.1, List.getLast?_concat]
  simpa using h.2

theorem leadsToFile_of_read (h : s.read path = .ok bytes) :
    ∃ l, s.LeadsToFile path l ∧ s.entryAt? l = some (.file bytes) := by
  unfold read at h
  split at h
  · cases h
  · rename_i l _ hl
    cases h
    obtain ⟨hempty, hfollow, hentry, hplain⟩ := locate_eq_ok.mp hl
    have hplain := hplain bytes rfl
    refine ⟨l, ⟨hempty, hfollow, hplain, endsInDot_of_plain hplain, ?_⟩, hentry⟩
    rw [hentry]
    nofun
  · cases h
  · cases h

theorem follow_append {parts more : List String} (h : s.follow l (parts ++ more) = .ok m) :
    ∃ d, s.follow l parts = .ok d ∧ s.follow d more = .ok m := by
  induction parts generalizing l with
  | nil => exact ⟨l, rfl, h⟩
  | cons part parts ih =>
    rw [List.cons_append, follow] at h
    rw [follow]
    split at h
    · exact ih h
    · cases h
    · cases h

/-- What a path name leads through is a directory. -/
theorem isDirectory_of_leading (hne : outer.isEmpty = false) (hslashes : slashes outer = slashes path)
    (hleading : components outer <+: components path) {e : Option Entry}
    (h : s.locate path = .ok (l, e))
    (hsame : components outer = components path → e = some .directory) :
    s.isDirectory outer = true := by
  obtain ⟨-, hfollow, hentry, -⟩ := locate_eq_ok.mp h
  obtain ⟨more, hmore⟩ := hleading
  have horigin : s.origin outer = s.origin path := by
    rw [origin, origin, isAbsolute_eq, isAbsolute_eq, hslashes]
  rw [← hmore] at hfollow
  obtain ⟨d, houter, hrest⟩ := follow_append hfollow
  have hd : s.entryAt? d = some .directory := by
    cases more with
    | nil =>
      cases hrest
      exact hentry.trans (hsame (by simpa using hmore))
    | cons part parts =>
      rw [follow] at hrest
      split at hrest
      · assumption
      · cases hrest
      · cases hrest
  exact isDirectory_iff.mpr ⟨d, locate_eq_ok.mpr ⟨hne, horigin ▸ houter, hd, nofun⟩⟩

theorem makeDirectories_of_isDirectory (h : s.isDirectory path = true) :
    s.makeDirectories path = (s, none) := by
  obtain ⟨l, hl⟩ := isDirectory_iff.mp h
  have hmissing : (directoriesAround path.length path).takeWhile (fun p => !s.exists? p) = [] := by
    cases haround : directoriesAround path.length path with
    | nil => rfl
    | cons head heads =>
      obtain ⟨hne, hslashes, hleading⟩ := mem_directoriesAround_head (congrArg List.head? haround)
      have hexists := exists?_of_isDirectory
        (isDirectory_of_leading hne hslashes hleading hl fun _ => rfl)
      rw [List.takeWhile_cons_of_neg (by simp [hexists])]
  unfold makeDirectories
  rw [hmissing]
  simp only [List.reverse_nil, List.nil_append, makeEach, ensureDirectory_of_isDirectory h]

/-- Saving a tree over a file never fails, and changes nothing else. -/
theorem saveTree_of_read (h : s.read path = .ok bytes) :
    ∃ l, s.LeadsToFile path l ∧ ∀ tree : Node,
      s.saveTree path tree = (s.put l (.file (Utf8.encode tree.toXml.toList)), none) := by
  obtain ⟨l, hl, hentry⟩ := leadsToFile_of_read h
  refine ⟨l, hl, fun tree => ?_⟩
  have hplain := hl.plain
  simp only [needsDirectory, Bool.or_eq_false_iff, beq_eq_false_iff_ne] at hplain
  have hcomponents : components path = components (dirName path) ++ [baseName path] := by
    rw [components_eq, names_dirName hplain.1, List.filter_append, ← components_eq]
    simp [hplain.2]
  have hdirectory : (if (dirName path).isEmpty then (s, none)
      else s.makeDirectories (dirName path)) = (s, none) := by
    split
    · rfl
    · rename_i hne
      have hlocate : s.locate path = .ok (l, some (.file bytes)) :=
        locate_eq_ok.mpr ⟨hl.nonempty, hl.follow, hentry, fun _ _ => hl.plain⟩
      refine makeDirectories_of_isDirectory
        (isDirectory_of_leading (by simpa using hne) (slashes_dirName path)
          ⟨[baseName path], hcomponents.symm⟩ hlocate fun hsame => ?_)
      rw [hcomponents] at hsame
      simpa using congrArg List.length hsame
  unfold saveTree
  dsimp only
  rw [hdirectory]
  dsimp only
  rw [writeText, hl.write]

end Store

end HeaderDocs
