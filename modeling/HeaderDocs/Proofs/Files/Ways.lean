import HeaderDocs.Proofs.Files.PathName
import HeaderDocs.Proofs.Text.Joined
import Mathlib.Data.List.Induction

/-!
# Ways from one place to another

The way from a directory to a place leads up as far as the two have nothing more in common, and down from
there. A way is followed part by part, and never leads above the place that all path names begin at; so
the working directory, which both path names are looked up in, leaves no trace in it.

* `components_absolute`: where a path name leads to from a working directory.
* `follow?_relativeTo?`: the way from a directory to a place leads there.
-/
namespace HeaderDocs.PathName

open HeaderDocs.Text

/-! ## Names with slashes between them -/

/-- A name that something in a directory can have. -/
structure IsEntry (name : String) : Prop where
  nonempty : name ≠ ""
  dot : name ≠ "."
  up : name ≠ ".."
  noSlash : '/' ∉ name.toList

instance (name : String) : Decidable (IsEntry name) :=
  decidable_of_iff (name ≠ "" ∧ name ≠ "." ∧ name ≠ ".." ∧ '/' ∉ name.toList)
    ⟨fun ⟨nonempty, dot, up, noSlash⟩ => ⟨nonempty, dot, up, noSlash⟩,
      fun h => ⟨h.nonempty, h.dot, h.up, h.noSlash⟩⟩

theorem parts_append_slash (path other : String) :
    parts (path ++ "/" ++ other) = parts path ++ parts other := by
  have hlist : (path ++ "/" ++ other).toList = path.toList ++ '/' :: other.toList := by simp
  rw [parts, hlist, splitWhere_append rfl, List.map_append]
  rfl

theorem parts_of_noSlash {path : String} (h : '/' ∉ path.toList) : parts path = [path] := by
  have hsplit : splitWhere (· == '/') path.toList = [path.toList] := splitWhere_of_none fun c hc =>
    beq_eq_false_iff_ne.mpr fun he => h (he ▸ hc)
  rw [parts, hsplit, List.map_singleton, String.ofList_toList]

/-- Names with slashes between them are found again. -/
theorem parts_intercalate {ns : List String} (hne : ns ≠ []) (h : ∀ name ∈ ns, '/' ∉ name.toList) :
    parts (String.intercalate "/" ns) = ns := by
  induction ns with
  | nil => exact absurd rfl hne
  | cons name ns ih =>
    have hname := parts_of_noSlash (h name (List.mem_cons_self ..))
    cases ns with
    | nil => rw [String.intercalate_singleton, hname]
    | cons other ns =>
      rw [String.intercalate_cons_cons, parts_append_slash, hname,
        ih (List.cons_ne_nil _ _) fun n hn => h n (List.mem_cons_of_mem _ hn)]
      rfl

theorem names_intercalate {ns : List String} (h : ∀ name ∈ ns, name ≠ "" ∧ '/' ∉ name.toList) :
    names (String.intercalate "/" ns) = ns := by
  by_cases hne : ns = []
  · rw [hne]
    rfl
  · rw [names_eq, parts_intercalate hne fun name hn => (h name hn).2]
    exact List.filter_eq_self.mpr fun name hn => bne_iff_ne.mpr (h name hn).1

theorem names_append_slash (path other : String) :
    names (path ++ "/" ++ other) = names path ++ names other := by
  rw [names_eq, parts_append_slash, List.filter_append, ← names_eq, ← names_eq]

theorem noSlash_of_mem_names {path name : String} (h : name ∈ names path) :
    name ≠ "" ∧ '/' ∉ name.toList := by
  refine ⟨ne_empty_of_mem_names h, fun hslash => ?_⟩
  obtain ⟨cs, hcs, rfl⟩ := List.mem_map.mp h
  rw [String.toList_ofList] at hslash
  exact absurd (mem_splitWhere (List.mem_filter.mp hcs).1 '/' hslash).1 (by decide)

/-- Names that something can have lead down from wherever they are looked at. -/
theorem under_intercalate {ns : List String} (h : ∀ name ∈ ns, IsEntry name) :
    Under "" ns (String.intercalate "/" ns) where
  slashes := by
    cases ns with
    | nil => rfl
    | cons name ns =>
      have hname := h name (List.mem_cons_self ..)
      obtain ⟨c, cs, hcs⟩ := List.exists_cons_of_ne_nil (mt String.toList_eq_nil_iff.mp hname.nonempty)
      have hc : c ≠ '/' := fun he => hname.noSlash (by rw [hcs, he]; exact List.mem_cons_self ..)
      have hfirst : ∃ rest, (String.intercalate "/" (name :: ns)).toList = c :: rest := by
        cases ns with
        | nil => exact ⟨cs, by rw [String.intercalate_singleton, hcs]⟩
        | cons other ns =>
          refine ⟨cs ++ ("/" ++ String.intercalate "/" (other :: ns)).toList, ?_⟩
          rw [String.intercalate_cons_cons, String.append_assoc, String.toList_append, hcs]
          rfl
      obtain ⟨rest, hrest⟩ := hfirst
      simp [slashes, hrest, hc]
  names := ⟨[], nofun, names_intercalate fun name hn => ⟨(h name hn).nonempty, (h name hn).noSlash⟩⟩
  named hne := by
    obtain ⟨ns, name, rfl⟩ : ∃ init name, ns = init ++ [name] :=
      ⟨_, _, (List.dropLast_concat_getLast hne).symm⟩
    have hname := h name (by simp)
    have hlast : ∃ before, String.intercalate "/" (ns ++ [name]) = before ++ name := by
      by_cases hns : ns = []
      · exact ⟨"", by rw [hns, List.nil_append, String.intercalate_singleton, String.empty_append]⟩
      · exact ⟨String.intercalate "/" ns ++ "/", by
          rw [String.intercalate_append_of_ne_nil hns (List.cons_ne_nil _ _),
            String.intercalate_singleton]⟩
    obtain ⟨before, hbefore⟩ := hlast
    have hchars : name.toList ≠ [] := mt String.toList_eq_nil_iff.mp hname.nonempty
    refine baseName_ne_empty_iff.mpr ⟨before.toList ++ name.toList.dropLast,
      name.toList.getLast hchars, ?_, fun he => hname.noSlash (he ▸ List.getLast_mem hchars)⟩
    rw [hbefore, String.toList_append, List.append_assoc, List.dropLast_concat_getLast]
  plain name hn := ⟨(h name hn).dot, (h name hn).up⟩

/-! ## Shortest path names -/

theorem mem_foldl_enter {absolute : Bool} {place down : List String} {name : String}
    (h : name ∈ down.foldl (enter absolute) place) : name ∈ place ∨ name ∈ down ∨ name = ".." := by
  induction down generalizing place with
  | nil => exact .inl h
  | cons part down ih =>
    rcases ih h with hplace | hdown | hup
    · unfold enter at hplace
      split at hplace
      · rcases List.mem_cons.mp hplace with rfl | hplace
        · exact .inr (.inl (List.mem_cons_self ..))
        · exact .inl hplace
      · split at hplace
        · split at hplace
          · cases hplace
          · exact .inr (.inr (List.mem_singleton.mp hplace))
        · split at hplace
          · rcases List.mem_cons.mp hplace with rfl | hplace
            · exact .inr (.inr rfl)
            · exact .inl hplace
          · exact .inl (List.mem_cons_of_mem _ hplace)
    · exact .inr (.inl (List.mem_cons_of_mem _ hdown))
    · exact .inr (.inr hup)

theorem names_rootSlashes (path other : String) :
    names (rootSlashes path ++ other) = names other := by
  have hone : names ("/" ++ other) = names other := names_append_slash "" other
  have htwo : names ("//" ++ other) = names other := (names_append_slash "/" other).trans rfl
  unfold rootSlashes
  split
  · exact hone
  · exact htwo
  · exact hone
  · rw [String.empty_append]

/-- The shortest path name of a place leads there. -/
theorem components_normalize (path : String) : components (normalize path) = (place path).reverse := by
  have hnames : ∀ name ∈ (place path).reverse, (name ≠ "" ∧ '/' ∉ name.toList) ∧ name ≠ "." := by
    intro name hn
    rcases mem_foldl_enter (List.mem_reverse.mp hn) with hnone | hname | rfl
    · cases hnone
    · rw [components_eq, List.mem_filter] at hname
      exact ⟨noSlash_of_mem_names hname.1, bne_iff_ne.mp hname.2⟩
    · exact ⟨⟨by decide, by decide⟩, by decide⟩
  have hread : names (String.intercalate "/" (place path).reverse) = (place path).reverse :=
    names_intercalate fun name hn => (hnames name hn).1
  have hfilter : (place path).reverse.filter (· != ".") = (place path).reverse :=
    List.filter_eq_self.mpr fun name hn => bne_iff_ne.mpr (hnames name hn).2
  rw [normalize_eq, components_eq]
  split
  · rename_i hempty
    have hplace := hread
    rw [(String.append_eq_empty_iff.mp (String.isEmpty_iff.mp hempty)).2] at hplace
    rw [← hplace]
    rfl
  · rw [names_rootSlashes, hread, hfilter]

theorem components_join {cwd path : String} (h : isAbsolute path = false) :
    components (join cwd path) = components cwd ++ components path := by
  cases hcwd : cwd.isEmpty with
  | true =>
    obtain rfl := String.isEmpty_iff.mp hcwd
    have hself : join "" path = path := by simp [join, h]
    rw [hself]
    rfl
  | false =>
    rw [components_eq, names_join h hcwd, List.filter_append, ← components_eq, ← components_eq]

theorem isAbsolute_join {cwd path : String} (h : isAbsolute path = false) :
    isAbsolute (join cwd path) = isAbsolute cwd := by
  cases hcwd : cwd.isEmpty with
  | true =>
    obtain rfl := String.isEmpty_iff.mp hcwd
    have hself : join "" path = path := by simp [join, h]
    rw [hself, h]
    rfl
  | false => rw [isAbsolute_eq, isAbsolute_eq, slashes_join h hcwd]

/-- Where a path name leads to that leads down from another one, in a working directory. -/
theorem components_absolute_of_under {docs path : String} {down : List String}
    (h : Under docs down path) (cwd : String) :
    components (absolute cwd path) = components (absolute cwd docs) ++ down := by
  have hplace : ∀ {path docs}, components path = components docs ++ down →
      isAbsolute path = isAbsolute docs → (place path).reverse = (place docs).reverse ++ down := by
    intro path docs hcomponents habsolute
    rw [place, hcomponents, habsolute, List.foldl_append,
      foldl_enter _ fun name hn => (h.plain name hn).2, List.reverse_append, List.reverse_reverse]
    rfl
  rw [absolute, absolute, components_normalize, components_normalize]
  cases hdocs : isAbsolute docs with
  | true =>
    rw [h.isAbsolute, hdocs, if_pos rfl, if_pos rfl]
    exact hplace h.components h.isAbsolute
  | false =>
    have hpath : isAbsolute path = false := h.isAbsolute.trans hdocs
    rw [hpath, if_neg Bool.false_ne_true, if_neg Bool.false_ne_true]
    refine hplace ?_ ((isAbsolute_join hpath).trans (isAbsolute_join hdocs).symm)
    rw [components_join hpath, components_join hdocs, h.components, List.append_assoc]

/-- Where a path name leads to from a working directory. -/
theorem components_absolute (cwd : String) {path : String} {down : List String}
    (h : Under "" down path) : components (absolute cwd path) = (place cwd).reverse ++ down := by
  have hself : place (join cwd "") = place cwd := by
    rw [place, components_join rfl, isAbsolute_join rfl]
    exact congrArg (List.foldl _ _) (List.append_nil _)
  rw [components_absolute_of_under h, absolute, components_normalize]
  exact congrArg (·.reverse ++ down) hself

/-! ## Following a way -/

/-- Follows one part of a way. Above the top there is nothing. -/
def followPart? (place : List String) (part : String) : Option (List String) :=
  if part = "" ∨ part = "." then some place
  else if part = ".." then (if place = [] then none else some place.dropLast)
  else some (place ++ [part])

/-- Follows a way from a place, given by its names from the outside in. -/
def follow? (place : List String) (way : String) : Option (List String) :=
  (parts way).foldlM followPart? place

theorem foldlM_followPart?_up (common up : List String) :
    (up.map fun _ => "..").foldlM followPart? (common ++ up) = some common := by
  induction up using List.reverseRecOn with
  | nil => simp
  | append_singleton up name ih =>
    have hparts : ((up ++ [name]).map fun _ => "..") = ".." :: up.map fun _ => ".." := by
      rw [List.map_const', List.map_const', List.length_append]
      rfl
    have hstep : followPart? (common ++ (up ++ [name])) ".." = some (common ++ up) := by
      simp [followPart?, ← List.append_assoc]
    rw [hparts, List.foldlM_cons, hstep]
    exact ih

theorem foldlM_followPart?_down {down : List String} (h : ∀ name ∈ down, IsEntry name)
    (place : List String) : down.foldlM followPart? place = some (place ++ down) := by
  induction down generalizing place with
  | nil => simp
  | cons name down ih =>
    have hname := h name (List.mem_cons_self ..)
    have hstep : followPart? place name = some (place ++ [name]) := by
      simp [followPart?, hname.nonempty, hname.dot, hname.up]
    rw [List.foldlM_cons, hstep]
    exact (ih (fun n hn => h n (List.mem_cons_of_mem _ hn)) _).trans (by simp)

/-! ## The way to a place -/

theorem withoutCommon_eq (here there : List String) :
    ∃ common, here = common ++ (withoutCommon here there).1 ∧
      there = common ++ (withoutCommon here there).2 := by
  induction here generalizing there with
  | nil => exact ⟨[], rfl, rfl⟩
  | cons name here ih =>
    cases there with
    | nil => exact ⟨[], rfl, rfl⟩
    | cons other there =>
      cases he : name == other with
      | false => exact ⟨[], by simp [withoutCommon, he], by simp [withoutCommon, he]⟩
      | true =>
        obtain ⟨common, hhere, hthere⟩ := ih there
        refine ⟨name :: common, ?_, ?_⟩
        · simpa [withoutCommon, he] using hhere
        · simpa [withoutCommon, he, eq_of_beq he] using hthere

theorem withoutCommon_append (common here there : List String) :
    withoutCommon (common ++ here) (common ++ there) = withoutCommon here there := by
  induction common with
  | nil => rfl
  | cons name common ih => simpa [withoutCommon] using ih

variable {here there : List String} {directory path : String}

/-- The way from a directory to a place leads there, whatever the working directory. It stays within what
both are looked at from, and is no empty text. -/
theorem follow?_relativeTo? (cwd : String) (hdirectory : Under "" here directory)
    (hpath : Under "" there path) (hne : path.isEmpty = false)
    (hentries : ∀ name ∈ there, IsEntry name) :
    ∃ way, relativeTo? cwd path directory = some way ∧ way ≠ "" ∧ follow? here way = some there := by
  obtain ⟨common, hhere, hthere⟩ := withoutCommon_eq here there
  have hdown : ∀ name ∈ (withoutCommon here there).2, IsEntry name := fun name hn =>
    hentries name (hthere ▸ List.mem_append_right _ hn)
  rw [relativeTo?, hne, components_absolute cwd hdirectory, components_absolute cwd hpath,
    withoutCommon_append]
  generalize withoutCommon here there = ways at hhere hthere hdown
  obtain ⟨up, down⟩ := ways
  dsimp only at hhere hthere hdown ⊢
  have hfollow : (up.map (fun _ => "..") ++ down).foldlM followPart? here = some there := by
    rw [List.foldlM_append, hhere, foldlM_followPart?_up]
    exact (foldlM_followPart?_down hdown common).trans (congrArg some hthere.symm)
  refine ⟨_, rfl, ?_⟩
  cases hway : up.map (fun _ => "..") ++ down with
  | nil =>
    rw [hway] at hfollow
    exact ⟨by decide, hfollow⟩
  | cons part parts =>
    have hparts : ∀ name ∈ part :: parts, name ≠ "" ∧ '/' ∉ name.toList := by
      intro name hn
      rw [← hway, List.mem_append] at hn
      rcases hn with hn | hn
      · obtain ⟨-, -, rfl⟩ := List.mem_map.mp hn
        exact ⟨by decide, by decide⟩
      · exact ⟨(hdown name hn).nonempty, (hdown name hn).noSlash⟩
    have hread := parts_intercalate (List.cons_ne_nil part parts) fun name hn => (hparts name hn).2
    refine ⟨?_, ?_⟩
    · have hlength := length_intercalate_pos (hparts part (List.mem_cons_self ..)).1 parts
      intro he
      change String.intercalate "/" (part :: parts) = "" at he
      rw [he] at hlength
      exact absurd hlength (by decide)
    · change (PathName.parts (String.intercalate "/" (part :: parts))).foldlM followPart? here = _
      rw [hread, ← hway]
      exact hfollow

theorem follow?_slash (place : List String) (way : String) :
    follow? place (way ++ "/") = follow? place way := by
  have hparts : parts (way ++ "/") = parts way ++ [""] := by
    rw [← String.append_empty (s := way ++ "/"), parts_append_slash]
    rfl
  rw [follow?, follow?, hparts, List.foldlM_append]
  cases (parts way).foldlM followPart? place <;> rfl

/-! ## What a way is made of -/

variable {cwd way : String} {c : Char}

theorem mem_of_mem_components {name : String} (h : name ∈ components path) (hc : c ∈ name.toList) :
    c ∈ path.toList := by
  obtain ⟨cs, hcs, rfl⟩ := List.mem_map.mp (List.mem_filter.mp h).1
  rw [String.toList_ofList] at hc
  exact (mem_splitWhere hcs c hc).2

theorem mem_components_absolute (hdot : c ≠ '.') (hslash : c ≠ '/') {name : String}
    (h : name ∈ components (absolute cwd path)) (hc : c ∈ name.toList) :
    c ∈ path.toList ∨ c ∈ cwd.toList := by
  rw [absolute, components_normalize, List.mem_reverse] at h
  rcases mem_foldl_enter h with h | h | rfl
  · cases h
  · have hmem := mem_of_mem_components h hc
    split at hmem
    · exact .inl hmem
    · unfold join at hmem
      split at hmem
      · exact .inl hmem
      · split at hmem <;> simp only [String.toList_append, List.mem_append] at hmem
        · exact hmem.symm
        · obtain (hmem | hmem) | hmem := hmem
          · exact .inr hmem
          · exact absurd (List.mem_singleton.mp hmem) hslash
          · exact .inl hmem
  · simp [hdot] at hc

/-- Apart from dots and slashes, a way holds characters of the place that it leads to and of the working
directory. -/
theorem mem_relativeTo? (hdot : c ≠ '.') (hslash : c ≠ '/')
    (h : relativeTo? cwd path directory = some way) (hc : c ∈ way.toList) :
    c ∈ path.toList ∨ c ∈ cwd.toList := by
  unfold relativeTo? at h
  split at h
  · cases h
  obtain ⟨common, -, hthere⟩ := withoutCommon_eq (components (absolute cwd directory))
    (components (absolute cwd path))
  generalize withoutCommon (components (absolute cwd directory)) (components (absolute cwd path)) =
    ways at h hthere
  obtain ⟨up, down⟩ := ways
  obtain rfl := Option.some.inj h
  split at hc
  · exact absurd (List.mem_singleton.mp hc) hdot
  · obtain ⟨name, hname, hmem⟩ := (mem_intercalate hc).resolve_left fun hslash' =>
      hslash (List.mem_singleton.mp hslash')
    rcases List.mem_append.mp hname with hname | hname
    · obtain ⟨-, -, rfl⟩ := List.mem_map.mp hname
      simp [hdot] at hmem
    · have habsolute : name ∈ components (absolute cwd path) := by
        rw [hthere]
        exact List.mem_append_right _ hname
      exact mem_components_absolute hdot hslash habsolute hmem

end HeaderDocs.PathName
