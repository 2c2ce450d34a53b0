import HeaderDocs.Files.Sources
import HeaderDocs.Proofs.Files.Store
import HeaderDocs.Proofs.Files.Ways

/-!
# Two ways to choose sources

Sources are chosen by the end of their name (`discover`) or by their extension (`collect`). For plain
extensions, in lower case and with a single dot, a name that has an extension ends in one of them
exactly if it has it. Hidden files such as `.h` have none, and are only found by the end of their
name.

* `contains_extension`: the two ways to look at a name.
* `relativeTo?_of_under`, `join_intercalate`: the path name of a file, relative to a directory and put
  behind it again.
* `collect_perm_discover`: what is chosen below a directory in the two ways.
-/
namespace HeaderDocs

open HeaderDocs.Text

/-! ## Extensions -/

/-- An extension that lower case and further dots do not change. The lower case of a sigma depends on
what stands before it. -/
structure IsPlainExtension (ext : String) : Prop where
  lowerCase : lower (withDot ext).toList = (withDot ext).toList
  oneDot : '.' ∉ (withDot ext).toList.tail
  noSigma : 'σ' ∉ (withDot ext).toList
  noFinalSigma : 'ς' ∉ (withDot ext).toList

instance (ext : String) : Decidable (IsPlainExtension ext) :=
  decidable_of_iff (lower (withDot ext).toList = (withDot ext).toList ∧
      '.' ∉ (withDot ext).toList.tail ∧ 'σ' ∉ (withDot ext).toList ∧ 'ς' ∉ (withDot ext).toList)
    ⟨fun ⟨lowerCase, oneDot, noSigma, noFinalSigma⟩ => ⟨lowerCase, oneDot, noSigma, noFinalSigma⟩,
      fun h => ⟨h.lowerCase, h.oneDot, h.noSigma, h.noFinalSigma⟩⟩

theorem exists_toList_withDot (ext : String) : ∃ cs, (withDot ext).toList = '.' :: cs := by
  unfold withDot
  split
  · rename_i h
    obtain ⟨cs, hcs⟩ := List.head?_eq_some_iff.mp (eq_of_beq h)
    exact ⟨cs, hcs⟩
  · exact ⟨ext.toList, by rw [String.toList_append]; rfl⟩

/-- Which part of a text stands behind its last dot. -/
theorem dot_suffix_iff {start cs rest : List Char} (hcs : '.' ∉ cs) (hrest : '.' ∉ rest) :
    '.' :: cs <:+ start ++ '.' :: rest ↔ cs = rest := by
  have heq : ∀ {cs rest : List Char}, '.' ∉ rest → '.' :: cs <:+ '.' :: rest → cs = rest := by
    intro cs rest hrest h
    rcases List.suffix_cons_iff.mp h with he | h
    · exact (List.cons.inj he).2
    · exact absurd (h.subset (List.mem_cons_self ..)) hrest
  constructor
  · intro h
    rcases List.suffix_or_suffix_of_suffix h (List.suffix_append start ('.' :: rest)) with h | h
    · exact heq hrest h
    · exact (heq hcs h).symm
  · rintro rfl
    exact List.suffix_append ..

namespace PathName

variable {name path other : String}

/-- A name without slashes is the last part of itself. -/
theorem baseName_of_noSlash (h : '/' ∉ name.toList) : baseName name = name := by
  have hlast : name.toList.reverse.takeWhile (· != '/') = name.toList.reverse := by
    refine List.takeWhile_eq_self_iff.mpr fun c hc => bne_iff_ne.mpr ?_
    rintro rfl
    exact h (List.mem_reverse.mp hc)
  simp [baseName, hlast]

theorem extension_congr (h : baseName path = baseName other) : extension path = extension other := by
  unfold extension
  rw [h]

theorem toList_extension (hslash : '/' ∉ name.toList) (h : extension name ≠ "") :
    ∃ start cs, name.toList = start ++ '.' :: cs ∧ '.' ∉ cs ∧ (extension name).toList = '.' :: cs := by
  unfold extension at h ⊢
  rw [baseName_of_noSlash hslash] at h ⊢
  dsimp only at h ⊢
  split at h
  · rename_i hdot
    rw [if_pos hdot, String.toList_ofList]
    generalize hstem : name.toList.dropWhile (· == '.') = stem at hdot
    obtain ⟨last, before, hsplit, hlast⟩ :=
      List.eq_append_cons_of_mem (List.mem_reverse.mpr (List.contains_iff_mem.mp hdot))
    have htake : stem.reverse.takeWhile (· != '.') = last := by
      have hpos : ∀ c ∈ last, (c != '.') = true := fun c hc =>
        bne_iff_ne.mpr fun he => hlast (he ▸ hc)
      rw [hsplit, List.takeWhile_append_of_pos hpos, List.takeWhile_cons_of_neg (by decide),
        List.append_nil]
    rw [htake]
    refine ⟨name.toList.takeWhile (· == '.') ++ before.reverse, last.reverse, ?_,
      fun hc => hlast (List.mem_reverse.mp hc), rfl⟩
    have hreverse : stem = before.reverse ++ '.' :: last.reverse := by
      rw [← List.reverse_reverse stem, hsplit]
      simp
    rw [List.append_assoc, ← hreverse, ← hstem, List.takeWhile_append_dropWhile]
  · exact absurd rfl h

end PathName

/-- A text without sigmas is the lower case of another one whatever stands before it. -/
theorem eq_lowerFrom_congr {cs rest : List Char} (hsigma : 'σ' ∉ cs) (hfinal : 'ς' ∉ cs)
    (before other : List Char) : cs = lowerFrom before rest ↔ cs = lowerFrom other rest := by
  by_cases h : 'Σ' ∈ rest
  · have hne : ∀ before, cs ≠ lowerFrom before rest := by
      rintro before rfl
      exact (sigma_mem_lowerFrom h before).elim hsigma hfinal
    exact iff_of_false (hne before) (hne other)
  · rw [lowerFrom_congr h before other]

namespace Store

variable {s : Store} {root name : String} {extensions : List String}

/-- A name that has an extension ends in a plain one exactly if it has it. -/
theorem isSuffixOf_iff_extension {ext : String} (hslash : '/' ∉ name.toList)
    (hext : IsPlainExtension ext) (hne : PathName.extension name ≠ "") :
    lower (withDot ext).toList <:+ lower name.toList ↔
      withDot ext = lowered (PathName.extension name) := by
  obtain ⟨start, cs, hname, hcs, hextension⟩ := PathName.toList_extension hslash hne
  obtain ⟨wanted, hwanted⟩ := exists_toList_withDot ext
  obtain ⟨before, hbegin⟩ := exists_lowerFrom_append [] start ('.' :: cs)
  obtain ⟨hlower, hdot, hsigma, hfinal⟩ := hext
  rw [hlower, hname, lower, hbegin, ← String.toList_inj, lowered, String.toList_ofList, hextension,
    lower, hwanted]
  rw [hwanted] at hdot hsigma hfinal
  rw [List.tail_cons] at hdot
  have hcons : ∀ before, lowerFrom before ('.' :: cs) = '.' :: lowerFrom ('.' :: before) cs :=
    fun _ => rfl
  rw [hcons, hcons, dot_suffix_iff hdot (mt dot_mem_lowerFrom.mp hcs), List.cons.injEq]
  rw [eq_lowerFrom_congr (List.not_mem_of_not_mem_cons hsigma)
    (List.not_mem_of_not_mem_cons hfinal) ('.' :: (start.reverse ++ [])) ['.']]
  exact ⟨fun h => ⟨rfl, h⟩, And.right⟩

/-- The two ways to look at a name. -/
theorem contains_extension (hslash : '/' ∉ name.toList)
    (hplain : ∀ ext ∈ extensions, IsPlainExtension ext) :
    (extensions.map withDot).contains (lowered (PathName.extension name)) =
      (PathName.extension name != "" && hasExtension extensions name) := by
  by_cases hne : PathName.extension name = ""
  · rw [hne, bne_self_eq_false, Bool.false_and, ← Bool.not_eq_true, List.contains_iff_mem]
    intro hmem
    obtain ⟨ext, -, hext⟩ := List.mem_map.mp hmem
    obtain ⟨cs, hcs⟩ := exists_toList_withDot ext
    rw [hext] at hcs
    cases hcs
  · rw [bne_iff_ne.mpr hne, Bool.true_and, Bool.eq_iff_iff, List.contains_iff_mem, List.mem_map,
      hasExtension, List.any_eq_true]
    refine exists_congr fun ext => and_congr_right fun hext => ?_
    rw [List.isSuffixOf_iff_suffix, isSuffixOf_iff_extension hslash (hplain ext hext) hne]

end Store

/-! ## Path names of files below a directory -/

namespace PathName

variable {docs path name cwd : String} {down : List String}

theorem isAbsolute_entry (h : IsEntry name) : isAbsolute name = false := by
  rw [isAbsolute, beq_eq_false_iff_ne]
  exact fun he => h.noSlash (List.mem_of_mem_head? he)

theorem baseName_entry (h : IsEntry name) : baseName name = name :=
  baseName_of_noSlash h.noSlash

/-- A name behind a path name leads one step further down. -/
theorem Under.join (h : Under docs down path) (hdocs : docs.isEmpty = false) (hname : IsEntry name) :
    Under docs (down ++ [name]) (join path name) where
  slashes := (slashes_join (isAbsolute_entry hname) (h.isEmpty hdocs)).trans h.slashes
  names := by
    obtain ⟨dots, hdots, hnames⟩ := h.names
    have hone : PathName.names name = [name] := by
      rw [PathName.names, segments_of_noSlash hname.noSlash (mt String.toList_eq_nil_iff.mp hname.nonempty),
        List.map_singleton, String.ofList_toList]
    refine ⟨dots, hdots, ?_⟩
    rw [names_join (isAbsolute_entry hname) (h.isEmpty hdocs), hnames, hone, List.append_assoc]
  named _ := by
    obtain ⟨cs, c, hcs, hc⟩ := baseName_ne_empty_iff.mp ((baseName_entry hname).trans_ne hname.nonempty)
    obtain ⟨start, -, hjoin⟩ := toList_join (isAbsolute_entry hname) (h.isEmpty hdocs)
    refine baseName_ne_empty_iff.mpr ⟨start ++ '/' :: cs, c, ?_, hc⟩
    rw [hjoin, hcs, List.append_assoc, List.cons_append]
  plain other hother := by
    rcases List.mem_append.mp hother with hother | hother
    · exact h.plain other hother
    · obtain rfl := List.mem_singleton.mp hother
      exact ⟨hname.dot, hname.up⟩

theorem under_self (docs : String) : Under docs [] docs where
  slashes := rfl
  names := ⟨[], nofun, by simp⟩
  named h := absurd rfl h
  plain := nofun

/-- Names one behind the other lead down along themselves. -/
theorem under_foldl_join (hdocs : docs.isEmpty = false) (h : ∀ name ∈ down, IsEntry name) :
    Under docs down (down.foldl PathName.join docs) := by
  induction down using List.reverseRecOn with
  | nil => exact under_self docs
  | append_singleton down name ih =>
    rw [List.foldl_append]
    exact (ih fun n hn => h n (List.mem_append_left _ hn)).join hdocs (h name (by simp))

/-- The way to what lies below a directory are the names that lead there. -/
theorem relativeTo?_of_under (h : Under docs down path) (hdocs : docs.isEmpty = false)
    (hne : down ≠ []) : relativeTo? cwd path docs = some (String.intercalate "/" down) := by
  have hways : withoutCommon (components (absolute cwd docs))
      (components (absolute cwd docs) ++ down) = ([], down) := by
    have hcommon := withoutCommon_append (components (absolute cwd docs)) [] down
    rw [List.append_nil] at hcommon
    rw [hcommon]
    cases down <;> rfl
  rw [relativeTo?, h.isEmpty hdocs, components_absolute_of_under h cwd, hways]
  simp [hne]

theorem join_append {other : String} (h : other ≠ "") (rest : String) :
    join path (other ++ rest) = join path other ++ rest := by
  have habsolute : isAbsolute (other ++ rest) = isAbsolute other := by
    obtain ⟨c, cs, hcs⟩ := List.exists_cons_of_ne_nil (mt String.toList_eq_nil_iff.mp h)
    rw [isAbsolute, isAbsolute, String.toList_append, hcs]
    rfl
  unfold join
  rw [habsolute]
  split
  · rfl
  split
  · exact String.append_assoc.symm
  · exact String.append_assoc.symm

theorem join_of_named {other : String} (h : baseName path ≠ "") (hother : isAbsolute other = false) :
    join path other = path ++ "/" ++ other := by
  obtain ⟨cs, c, hcs, hc⟩ := baseName_ne_empty_iff.mp h
  have hempty : path.isEmpty = false := by
    rw [← Bool.not_eq_true, String.isEmpty_iff]
    rintro rfl
    exact absurd hcs (by simp)
  have hlast : (path.toList.getLast? == some '/') = false := by simpa [hcs] using hc
  simp [join, hother, hempty, hlast]

/-- Names with slashes between them stand behind a path name as if they were put there one by one. -/
theorem join_intercalate (hdocs : docs.isEmpty = false) (h : ∀ name ∈ down, IsEntry name)
    (hne : down ≠ []) :
    join docs (String.intercalate "/" down) = down.foldl join docs := by
  induction down using List.reverseRecOn with
  | nil => exact absurd rfl hne
  | append_singleton down name ih =>
    rw [List.foldl_append]
    cases down with
    | nil => rw [List.nil_append, String.intercalate_singleton]; rfl
    | cons first down =>
      have hfirst : ∀ n ∈ first :: down, IsEntry n := fun n hn => h n (List.mem_append_left _ hn)
      have hname : isAbsolute name = false := isAbsolute_entry (h name (by simp))
      have hbefore : String.intercalate "/" (first :: down) ≠ "" := by
        intro he
        have hpos := length_intercalate_pos (hfirst first (List.mem_cons_self ..)).nonempty down
        rw [he] at hpos
        exact absurd hpos (by decide)
      have hnamed := (under_foldl_join hdocs hfirst).named (List.cons_ne_nil first down)
      rw [String.intercalate_append_of_ne_nil (List.cons_ne_nil first down) (List.cons_ne_nil name []),
        String.intercalate_singleton, String.append_assoc, join_append hbefore,
        ih hfirst (List.cons_ne_nil first down), ← String.append_assoc]
      exact (join_of_named hnamed hname).symm

end PathName

/-! ## What is chosen -/

namespace Store

variable {s : Store} {root : String} {extensions : List String}

/-- Whatever there is has a name that something in a directory can have. -/
def Named (s : Store) : Prop := ∀ x ∈ s.entries, ∀ name ∈ x.1, PathName.IsEntry name

instance (s : Store) : Decidable s.Named := List.decidableBAll _ _

theorem isEmpty_of_isDirectory (h : s.isDirectory root = true) : root.isEmpty = false := by
  obtain ⟨l, hl⟩ := isDirectory_iff.mp h
  exact (locate_eq_ok.mp hl).1

theorem isFile_of_isDirectory (h : s.isDirectory root = true) : s.isFile root = false := by
  unfold isFile
  rw [eq_of_beq h]
  rfl

/-- What there is below a directory, by the names that lead there. -/
theorem mem_walk {directory : String} {names : List String} (hnamed : s.Named)
    (h : (directory, names) ∈ s.walk root) :
    ∃ down : List String, directory = down.foldl PathName.join root ∧ (∀ name ∈ down, PathName.IsEntry name) ∧
      ∀ name ∈ names, PathName.IsEntry name := by
  unfold walk at h
  split at h
  · rename_i top _
    obtain ⟨down, hdown, he⟩ := List.mem_map.mp h
    obtain ⟨rfl, rfl⟩ := Prod.mk.inj he
    refine ⟨down, rfl, ?_, fun name hname => ?_⟩
    · rcases List.mem_cons.mp hdown with rfl | hdown
      · nofun
      · obtain ⟨⟨l, e⟩, hx, hl⟩ := List.mem_filterMap.mp (List.mem_mergeSort.mp hdown)
        dsimp only at hl
        split at hl
        · obtain rfl := Option.some.inj hl
          exact fun name hname =>
            hnamed _ (List.mem_of_mem_filter hx) name (List.mem_of_mem_drop hname)
        · cases hl
    · obtain ⟨⟨l, e⟩, hx, hl⟩ := List.mem_filterMap.mp (List.mem_mergeSort.mp hname)
      dsimp only at hl
      split at hl
      · cases hl
      · exact hnamed _ (List.mem_of_mem_filter hx) name (List.mem_of_getLast? hl)
  · cases h

/-- The files of one directory that are chosen in the two ways. -/
theorem map_join_found {down names : List String} {cwd : String} (hroot : root.isEmpty = false)
    (hplain : ∀ ext ∈ extensions, IsPlainExtension ext)
    (hdown : ∀ name ∈ down, PathName.IsEntry name) (hnames : ∀ name ∈ names, PathName.IsEntry name) :
    (((names.filter (hasExtension extensions)).filterMap fun name =>
        PathName.relativeTo? cwd (PathName.join (down.foldl PathName.join root) name) root).filter
          fun file => PathName.extension file != "").map (PathName.join root) =
      (names.filter fun name =>
        (extensions.map withDot).contains (lowered (PathName.extension name))).map
          (PathName.join (down.foldl PathName.join root)) := by
  have hentries : ∀ name ∈ names, ∀ n ∈ down ++ [name], PathName.IsEntry n := by
    intro name hname n hn
    rcases List.mem_append.mp hn with hn | hn
    · exact hdown n hn
    · exact List.mem_singleton.mp hn ▸ hnames name hname
  have hway : ∀ name ∈ names, PathName.relativeTo? cwd
      (PathName.join (down.foldl PathName.join root) name) root =
        some (String.intercalate "/" (down ++ [name])) := fun name hname =>
    PathName.relativeTo?_of_under
      ((PathName.under_foldl_join hroot hdown).join hroot (hnames name hname)) hroot (by simp)
  have hextension : ∀ name ∈ names,
      PathName.extension (String.intercalate "/" (down ++ [name])) = PathName.extension name := by
    intro name hname
    refine PathName.extension_congr ?_
    rw [(PathName.under_intercalate (hentries name hname)).dirName.2,
      PathName.baseName_entry (hnames name hname)]
  have hjoin : ∀ name ∈ names, PathName.join root (String.intercalate "/" (down ++ [name])) =
      PathName.join (down.foldl PathName.join root) name := by
    intro name hname
    rw [PathName.join_intercalate hroot (hentries name hname) (by simp), List.foldl_append]
    rfl
  have hfound : (names.filter (hasExtension extensions)).filterMap (fun name =>
      PathName.relativeTo? cwd (PathName.join (down.foldl PathName.join root) name) root) =
        (names.filter (hasExtension extensions)).map fun name =>
          String.intercalate "/" (down ++ [name]) := by
    rw [← List.filterMap_eq_map]
    exact List.filterMap_congr fun name hname => hway name (List.mem_of_mem_filter hname)
  have hchosen : (names.filter (hasExtension extensions)).filter (fun name =>
      PathName.extension (String.intercalate "/" (down ++ [name])) != "") =
        names.filter fun name =>
          (extensions.map withDot).contains (lowered (PathName.extension name)) := by
    rw [List.filter_filter]
    refine List.filter_congr fun name hname => ?_
    rw [hextension name hname, contains_extension (hnames name hname).noSlash hplain]
  rw [hfound, List.filter_map, List.map_map]
  simp only [Function.comp_def]
  rw [hchosen]
  exact List.map_congr_left fun name hname => hjoin name (List.mem_of_mem_filter hname)

theorem collect_of_isDirectory (hroot : s.isDirectory root = true) (wanted : List String) :
    s.collect [root] wanted = .ok ((s.walk root).flatMap fun (directory, names) =>
      (names.filter fun name => wanted.contains (lowered (PathName.extension name))).map
        (PathName.join directory)) := by
  simp [collect, isFile_of_isDirectory hroot, hroot, Except.map]

theorem discover_perm (root : String) (extensions : List String) :
    (s.discover root extensions []).Perm ((s.walk root).flatMap fun (directory, names) =>
      (names.filter (hasExtension extensions)).filterMap fun name =>
        PathName.relativeTo? ("/" ++ String.intercalate "/" s.cwd) (PathName.join directory name)
          root) := by
  have hall : s.discover root extensions [] = s.filesBelow root extensions :=
    List.filter_eq_self.mpr fun _ _ => rfl
  rw [hall]
  exact List.mergeSort_perm _ _

/-- **Sources.** For plain extensions, the files that are chosen below a directory by their extension
are those that are chosen by the end of their name, but for hidden files without an extension. -/
theorem collect_perm_discover (hroot : s.isDirectory root = true) (hnamed : s.Named)
    (hplain : ∀ ext ∈ extensions, IsPlainExtension ext) :
    ∃ files, s.collect [root] (extensions.map withDot) = .ok files ∧
      files.Perm (((s.discover root extensions []).filter fun file =>
        PathName.extension file != "").map (PathName.join root)) ∧
      (files.Perm ((s.discover root extensions []).map (PathName.join root)) ↔
        ∀ file ∈ s.discover root extensions [], PathName.extension file ≠ "") := by
  refine ⟨_, collect_of_isDirectory hroot _, ?_⟩
  generalize hfiles : ((s.walk root).flatMap fun (directory, names) =>
    (names.filter fun name => (extensions.map withDot).contains
      (lowered (PathName.extension name))).map (PathName.join directory)) = files
  have hperm : files.Perm (((s.discover root extensions []).filter fun file =>
      PathName.extension file != "").map (PathName.join root)) := by
    refine List.Perm.trans ?_ (((discover_perm root extensions).filter _).map _).symm
    rw [List.filter_flatMap, List.map_flatMap, ← hfiles]
    refine List.Perm.of_eq (List.flatMap_congr fun x hx => ?_)
    obtain ⟨directory, names⟩ := x
    obtain ⟨down, rfl, hdown, hnames⟩ := mem_walk hnamed hx
    exact (map_join_found (isEmpty_of_isDirectory hroot) hplain hdown hnames).symm
  refine ⟨hperm, fun hsame => ?_, fun hall => ?_⟩
  · have hlength := hperm.symm.trans hsame |>.length_eq
    rw [List.length_map, List.length_map, List.length_filter_eq_length_iff] at hlength
    exact fun file hfile => bne_iff_ne.mp (hlength file hfile)
  · rwa [List.filter_eq_self.mpr fun file hfile => bne_iff_ne.mpr (hall file hfile)] at hperm

/-- A directory with headers, one of them in a directory of its own. -/
def headers : Store :=
  { entries := [(["src"], .directory), (["src", "a.h"], .file []), (["src", "b.in.h"], .file []),
      (["src", "notes.txt"], .file []), (["src", "lib"], .directory),
      (["src", "lib", "C.H"], .file [])] }

theorem walk_headers : headers.walk "src" =
    [("src", ["a.h", "b.in.h", "notes.txt"]), ("src/lib", ["C.H"])] := by
  have hlocate : headers.locate "src" = .ok (["src"], some .directory) := by decide
  have hbelow : headers.below ["src"] = [(["src", "a.h"], .file []), (["src", "b.in.h"], .file []),
      (["src", "notes.txt"], .file []), (["src", "lib"], .directory),
      (["src", "lib", "C.H"], .file [])] := by decide
  have hsource : headers.inside ["src"] = [(["src", "a.h"], .file []), (["src", "b.in.h"], .file []),
      (["src", "notes.txt"], .file []), (["src", "lib"], .directory)] := by decide
  have hlib : headers.inside ["src", "lib"] = [(["src", "lib", "C.H"], .file [])] := by decide
  have hsorted : ["a.h", "b.in.h", "notes.txt"].mergeSort (fun a b => decide (a ≤ b)) =
      ["a.h", "b.in.h", "notes.txt"] := List.mergeSort_of_pairwise (by decide)
  have hjoin : PathName.join "src" "lib" = "src/lib" := by decide
  unfold walk
  rw [hlocate]
  simp [hbelow, hsource, hlib, hsorted, hjoin]

theorem discover_headers (extensions : List String) :
    (headers.discover "src" extensions []).Perm
      ([("src", ["a.h", "b.in.h", "notes.txt"]), ("src/lib", ["C.H"])].flatMap fun (directory, names) =>
        (names.filter (hasExtension extensions)).filterMap fun name =>
          PathName.relativeTo? "/" (PathName.join directory name) "src") := by
  have hperm := discover_perm (s := headers) "src" extensions
  rwa [walk_headers] at hperm

theorem collect_perm_discover_headers :
    headers.isDirectory "src" = true ∧ headers.Named ∧ (∀ ext ∈ ["h", ".hpp"], IsPlainExtension ext) ∧
      ∃ files, headers.collect ["src"] (["h", ".hpp"].map withDot) = .ok files ∧
        files.Perm ["src/a.h", "src/b.in.h", "src/lib/C.H"] := by
  have hroot : headers.isDirectory "src" = true := by decide
  have hnamed : headers.Named := by decide
  have hplain : ∀ ext ∈ ["h", ".hpp"], IsPlainExtension ext := by decide
  obtain ⟨files, hcollect, -, hsame⟩ := collect_perm_discover hroot hnamed hplain
  have hdiscover : (headers.discover "src" ["h", ".hpp"] []).Perm ["a.h", "b.in.h", "lib/C.H"] :=
    (discover_headers _).trans (List.Perm.of_eq (by decide +kernel))
  have hextensions : ∀ file ∈ headers.discover "src" ["h", ".hpp"] [],
      PathName.extension file ≠ "" := by
    intro file hfile
    rw [hdiscover.mem_iff] at hfile
    revert file
    decide
  exact ⟨hroot, hnamed, hplain, files, hcollect,
    (hsame.mpr hextensions).trans ((hdiscover.map _).trans (List.Perm.of_eq (by decide)))⟩

/-- An extension in capitals, or one with a dot inside, is no extension of any file, though the names
of files end in it. -/
theorem not_collect_perm_discover_capitals :
    headers.isDirectory "src" = true ∧ headers.Named ∧
      headers.collect ["src"] ([".H"].map withDot) = .ok [] ∧
      (headers.discover "src" [".H"] []).Perm ["a.h", "b.in.h", "lib/C.H"] ∧
      headers.collect ["src"] ([".in.h"].map withDot) = .ok [] ∧
      (headers.discover "src" [".in.h"] []).Perm ["b.in.h"] := by
  have hroot : headers.isDirectory "src" = true := by decide
  have hcollect : ∀ ext ∈ [".H", ".in.h"], headers.collect ["src"] ([ext].map withDot) = .ok [] := by
    intro ext hext
    rw [collect_of_isDirectory hroot, walk_headers]
    revert ext
    decide +kernel
  exact ⟨hroot, by decide, hcollect _ (by simp),
    (discover_headers _).trans (List.Perm.of_eq (by decide +kernel)), hcollect _ (by simp),
    (discover_headers _).trans (List.Perm.of_eq (by decide +kernel))⟩

end Store

end HeaderDocs
