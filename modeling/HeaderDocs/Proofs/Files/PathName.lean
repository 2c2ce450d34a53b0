import HeaderDocs.Files.Store
import HeaderDocs.Proofs.Text.Words

/-!
# Path names that lead down

The path names of what lies in a directory are texts that begin with the path name of the directory,
in one of many ways to write it. `Under` says so, and which names lead on from there.

* `under_join`: path names that were put together.
* `Under.dirName`: the path name of the directory around.
* `Under.normalize_ne`: the shortest path names tell the directory from what lies in it.
-/
namespace HeaderDocs.PathName

open HeaderDocs.Text

/-! ## Names -/

/-- The names between the slashes of a text. -/
def segments (cs : List Char) : List (List Char) := (splitWhere (· == '/') cs).filter (!·.isEmpty)

/-- The names between the slashes of a path name, dots included. -/
def names (path : String) : List String := (segments path.toList).map String.ofList

theorem segments_append (cs rest : List Char) :
    segments (cs ++ '/' :: rest) = segments cs ++ segments rest := by
  rw [segments, splitWhere_append rfl, List.filter_append]
  rfl

theorem segments_concat (cs : List Char) : segments (cs ++ ['/']) = segments cs := by
  rw [segments_append]
  exact List.append_nil _

theorem segments_of_noSlash {cs : List Char} (h : '/' ∉ cs) (hne : cs ≠ []) : segments cs = [cs] := by
  have hsplit : splitWhere (· == '/') cs = [cs] := splitWhere_of_none fun c hc =>
    beq_eq_false_iff_ne.mpr fun he => h (he ▸ hc)
  simp [segments, hsplit, hne]

theorem segments_dropEndWhile (cs : List Char) :
    segments (dropEndWhile (· == '/') cs) = segments cs := by
  obtain ⟨rs, rfl⟩ : ∃ rs, cs = rs.reverse := ⟨cs.reverse, (List.reverse_reverse cs).symm⟩
  induction rs with
  | nil => rfl
  | cons c rs ih =>
    rw [List.reverse_cons, dropEndWhile_concat]
    split
    · rename_i hc
      rw [ih, eq_of_beq hc, segments_concat]
    · rfl

theorem segments_of_slashes {cs : List Char} (h : ∀ c ∈ cs, c = '/') : segments cs = [] := by
  induction cs with
  | nil => rfl
  | cons c cs ih =>
    rw [h c (List.mem_cons_self ..)]
    exact (segments_append [] cs).trans (ih fun d hd => h d (List.mem_cons_of_mem _ hd))

theorem ne_empty_of_mem_names {path name : String} (h : name ∈ names path) : name ≠ "" := by
  obtain ⟨cs, hcs, rfl⟩ := List.mem_map.mp h
  have hne := (List.mem_filter.mp hcs).2
  rintro he
  rw [String.ofList_eq_empty_iff.mp he] at hne
  cases hne

theorem names_eq (path : String) : names path = (parts path).filter (· != "") := by
  rw [parts, List.filter_map, names, segments]
  congr 1
  refine List.filter_congr fun cs _ => ?_
  cases cs <;> simp

theorem components_eq (path : String) : components path = (names path).filter (· != ".") := by
  rw [names_eq, List.filter_filter, components]
  exact List.filter_congr fun part _ => Bool.and_comm _ _

theorem length_names_le (path : String) : (names path).length ≤ path.length := by
  have hall : ∀ cs : List Char, (segments cs).length ≤ cs.length := by
    intro cs
    induction cs with
    | nil => exact Nat.le_refl 0
    | cons c cs ih =>
      unfold segments at ih ⊢
      rw [splitWhere]
      cases hpieces : splitWhere (· == '/') cs with
      | nil => exact absurd hpieces (splitWhere_ne_nil cs)
      | cons piece pieces =>
        rw [hpieces] at ih
        have hle : (pieces.filter (!·.isEmpty)).length ≤ cs.length :=
          Nat.le_trans (List.Sublist.length_le ((List.sublist_cons_self ..).filter _)) ih
        split
        · exact Nat.le_succ_of_le ih
        · simpa using hle
  rw [names, List.length_map, ← String.length_toList]
  exact hall path.toList

/-! ## Slashes at the start -/

def slashes (path : String) : Nat := (path.toList.takeWhile (· == '/')).length

theorem isAbsolute_eq (path : String) : isAbsolute path = (slashes path != 0) := by
  rw [isAbsolute, slashes]
  cases path.toList with
  | nil => rfl
  | cons c cs =>
    cases hc : c == '/' <;> simp [List.takeWhile_cons, hc, eq_of_beq]

theorem slashes_ne_zero_or {path : String} (h : path.isEmpty = false) :
    slashes path ≠ 0 ∨ names path ≠ [] := by
  rw [slashes, names]
  cases hcs : path.toList with
  | nil =>
    rw [String.toList_eq_nil_iff.mp hcs] at h
    cases h
  | cons c cs =>
    cases hc : c == '/' with
    | true => exact .inl (by simp [hc])
    | false =>
      right
      unfold segments
      rw [splitWhere, hc]
      cases hpieces : splitWhere (· == '/') cs with
      | nil => exact absurd hpieces (splitWhere_ne_nil cs)
      | cons piece pieces => simp

theorem rootSlashes_congr {path other : String} (h : slashes path = slashes other) :
    rootSlashes path = rootSlashes other := by
  have hkept : ∀ path : String, rootSlashes path =
      match slashes path with
      | 0 => ""
      | 2 => "//"
      | _ => "/" := by
    intro path
    rw [rootSlashes, slashes]
    rcases path.toList with _ | ⟨a, cs⟩
    · rfl
    by_cases ha : a = '/'
    · subst ha
      rcases cs with _ | ⟨b, cs⟩
      · rfl
      by_cases hb : b = '/'
      · subst hb
        rcases cs with _ | ⟨c, cs⟩
        · rfl
        by_cases hc : c = '/'
        · subst hc
          rfl
        · simp [hc]
      · simp [hb]
    · simp [ha]
  rw [hkept, hkept, h]

theorem takeWhile_slash_append {cs rest : List Char} (h : (∃ c ∈ cs, c ≠ '/') ∨ rest.head? ≠ some '/') :
    ((cs ++ rest).takeWhile (· == '/')).length = (cs.takeWhile (· == '/')).length := by
  induction cs with
  | nil =>
    rcases h with ⟨c, hc, -⟩ | h
    · cases hc
    · cases rest with
      | nil => rfl
      | cons d rest =>
        have hd : (d == '/') = false := beq_eq_false_iff_ne.mpr fun he => h (he ▸ rfl)
        simp [hd]
  | cons c cs ih =>
    cases hc : c == '/' with
    | false => simp [hc]
    | true =>
      simp only [List.cons_append, List.takeWhile_cons, hc, if_true, List.length_cons]
      refine congrArg (· + 1) (ih (h.imp_left ?_))
      rintro ⟨d, hd, hne⟩
      rcases List.mem_cons.mp hd with rfl | hd
      · exact absurd (eq_of_beq hc) hne
      · exact ⟨d, hd, hne⟩

/-- Dropping the slashes at the end leaves what ends in something else. -/
theorem dropEndWhile_slash {cs : List Char} (h : ∃ c ∈ cs, c ≠ '/') :
    ∃ start c rest, cs = start ++ [c] ++ rest ∧ c ≠ '/' ∧
      dropEndWhile (· == '/') cs = start ++ [c] := by
  obtain ⟨rs, rfl⟩ : ∃ rs, cs = rs.reverse := ⟨cs.reverse, (List.reverse_reverse cs).symm⟩
  induction rs with
  | nil =>
    obtain ⟨c, hc, -⟩ := h
    cases hc
  | cons c rs ih =>
    rw [List.reverse_cons, dropEndWhile_concat]
    split
    · rename_i hc
      have hrest : ∃ d ∈ rs.reverse, d ≠ '/' := by
        obtain ⟨d, hd, hne⟩ := h
        rw [List.reverse_cons, List.mem_append, List.mem_singleton] at hd
        exact ⟨d, hd.resolve_right fun he => hne (he.trans (eq_of_beq hc)), hne⟩
      obtain ⟨start, d, rest, he, hd, hdrop⟩ := ih hrest
      exact ⟨start, d, rest ++ [c], by rw [he, List.append_assoc (start ++ [d])], hd, hdrop⟩
    · rename_i hc
      exact ⟨rs.reverse, c, [], (List.append_nil _).symm, fun he => hc (beq_iff_eq.mpr he), rfl⟩

/-! ## Joining -/

variable {path other : String}

/-- There is one slash between two path names that are put together. -/
theorem toList_join (h : isAbsolute other = false) (hp : path.isEmpty = false) :
    ∃ cs, (path.toList = cs ∧ (∃ c ∈ cs, c ≠ '/') ∨ path.toList = cs ++ ['/']) ∧
      (join path other).toList = cs ++ '/' :: other.toList := by
  unfold join
  rw [h, hp]
  simp only [Bool.false_eq_true, if_false, Bool.false_or]
  split
  · rename_i hlast
    obtain ⟨cs, hcs⟩ := List.getLast?_eq_some_iff.mp (eq_of_beq hlast)
    exact ⟨cs, .inr hcs, by rw [String.toList_append, hcs, List.append_assoc]; rfl⟩
  · rename_i hlast
    refine ⟨path.toList, .inl ⟨rfl, ?_⟩, ?_⟩
    · have hne : path.toList ≠ [] := by
        intro he
        rw [String.toList_eq_nil_iff.mp he] at hp
        cases hp
      refine ⟨path.toList.getLast hne, List.getLast_mem hne, fun he => hlast ?_⟩
      rw [List.getLast?_eq_some_getLast hne, he]
      rfl
    · rw [String.toList_append, String.toList_append, List.append_assoc]
      rfl

theorem names_join (h : isAbsolute other = false) (hp : path.isEmpty = false) :
    names (join path other) = names path ++ names other := by
  obtain ⟨cs, hcs, hjoin⟩ := toList_join h hp
  have hpath : segments path.toList = segments cs := by
    rcases hcs with ⟨rfl, -⟩ | hcs
    · rfl
    · rw [hcs, segments_concat]
  rw [names, names, names, hjoin, segments_append, List.map_append, hpath]

theorem slashes_join (h : isAbsolute other = false) (hp : path.isEmpty = false) :
    slashes (join path other) = slashes path := by
  have hother : other.toList.head? ≠ some '/' := by
    rw [isAbsolute] at h
    simpa using h
  obtain ⟨cs, ⟨rfl, hcs⟩ | hcs, hjoin⟩ := toList_join h hp
  · rw [slashes, hjoin, takeWhile_slash_append (.inl hcs), slashes]
  · rw [slashes, hjoin, slashes, hcs, ← List.singleton_append, ← List.append_assoc,
      takeWhile_slash_append (.inr hother)]

/-! ## The directory around -/

theorem toList_dirName (path : String) :
    ∃ head base, path.toList = head ++ base ∧ '/' ∉ base ∧ baseName path = String.ofList base ∧
      (head = [] ∨ ∃ cs, head = cs ++ ['/']) ∧
      ((∀ c ∈ head, c = '/') ∧ (dirName path).toList = head ∨
        (∃ c ∈ head, c ≠ '/') ∧ (dirName path).toList = dropEndWhile (· == '/') head) := by
  refine ⟨(path.toList.reverse.dropWhile (· != '/')).reverse, _, ?_, ?_, rfl, ?_, ?_⟩
  · rw [← List.reverse_append, List.takeWhile_append_dropWhile, List.reverse_reverse]
  · intro hm
    exact absurd (List.all_eq_true.mp List.all_takeWhile _ (List.mem_reverse.mp hm)) (by decide)
  · have hhead := List.head?_dropWhile_not (· != '/') path.toList.reverse
    cases hrest : path.toList.reverse.dropWhile (· != '/') with
    | nil => exact .inl rfl
    | cons c cs =>
      rw [hrest] at hhead
      obtain rfl : c = '/' := by simpa using hhead
      exact .inr ⟨cs.reverse, List.reverse_cons⟩
  · unfold dirName
    dsimp only
    generalize (path.toList.reverse.dropWhile (· != '/')).reverse = head
    split
    · rename_i hall
      exact .inl ⟨fun c hc => eq_of_beq (List.all_eq_true.mp hall c hc), String.toList_ofList⟩
    · rename_i hall
      refine .inr ⟨?_, String.toList_ofList⟩
      simpa using hall

theorem baseName_ne_empty_iff : baseName path ≠ "" ↔ ∃ cs c, path.toList = cs ++ [c] ∧ c ≠ '/' := by
  rw [baseName, ne_eq, String.ofList_eq_empty_iff, List.reverse_eq_nil_iff]
  constructor
  · intro h
    cases hrev : path.toList.reverse with
    | nil =>
      rw [hrev] at h
      exact absurd rfl h
    | cons c cs =>
      rw [hrev] at h
      refine ⟨cs.reverse, c, ?_, ?_⟩
      · rw [← List.reverse_cons, ← hrev, List.reverse_reverse]
      · rintro rfl
        exact h rfl
  · rintro ⟨cs, c, he, hc⟩
    simp [he, hc]

theorem names_dirName (h : baseName path ≠ "") : names path = names (dirName path) ++ [baseName path] := by
  obtain ⟨head, base, hpath, hslash, hbase, hhead, hdir⟩ := toList_dirName path
  have hne : base ≠ [] := by
    rintro rfl
    exact h hbase
  have hdirectory : segments (dirName path).toList = segments head := by
    rcases hdir with ⟨-, hdir⟩ | ⟨-, hdir⟩
    · rw [hdir]
    · rw [hdir, segments_dropEndWhile]
  have hsegments : segments path.toList = segments head ++ [base] := by
    rw [hpath]
    rcases hhead with rfl | ⟨cs, rfl⟩
    · exact segments_of_noSlash hslash hne
    · rw [List.append_assoc, List.singleton_append, segments_append, segments_concat,
        segments_of_noSlash hslash hne]
  rw [names, hsegments, List.map_append, names, hdirectory, hbase]
  rfl

theorem slashes_dirName (path : String) : slashes (dirName path) = slashes path := by
  obtain ⟨head, base, hpath, hslash, hbase, hhead, hdir⟩ := toList_dirName path
  have hfirst : base.head? ≠ some '/' := fun he => hslash (List.mem_of_mem_head? he)
  have hkept : slashes path = (head.takeWhile (· == '/')).length := by
    rw [slashes, hpath, takeWhile_slash_append (.inr hfirst)]
  rw [hkept, slashes]
  rcases hdir with ⟨-, hdir⟩ | ⟨hsome, hdir⟩
  · rw [hdir]
  · obtain ⟨start, c, rest, rfl, hc, hdrop⟩ := dropEndWhile_slash hsome
    rw [hdir, hdrop]
    exact (takeWhile_slash_append (.inl ⟨c, by simp, hc⟩)).symm

/-- Only slashes are left out at the end of the path name of a directory. -/
theorem names_dirName_of_empty (h : baseName path = "") : names (dirName path) = names path := by
  obtain ⟨head, base, hpath, -, hbase, -, hdir⟩ := toList_dirName path
  obtain rfl := String.ofList_eq_empty_iff.mp (hbase.symm.trans h)
  rw [List.append_nil] at hpath
  rw [names, names, hpath]
  rcases hdir with ⟨-, hdir⟩ | ⟨-, hdir⟩
  · rw [hdir]
  · rw [hdir, segments_dropEndWhile]

theorem names_prefix_dirName (path : String) : names (dirName path) <+: names path := by
  by_cases h : baseName path = ""
  · exact names_dirName_of_empty h ▸ List.prefix_rfl
  · exact names_dirName h ▸ List.prefix_append _ _

/-- The path name of a directory does not end in a slash, unless it has no names. -/
theorem baseName_dirName (h : names (dirName path) ≠ []) : baseName (dirName path) ≠ "" := by
  obtain ⟨head, -, -, -, -, -, ⟨hall, hdir⟩ | ⟨hsome, hdir⟩⟩ := toList_dirName path
  · rw [names, hdir, segments_of_slashes hall] at h
    exact absurd rfl h
  · obtain ⟨start, c, rest, -, hc, hdrop⟩ := dropEndWhile_slash hsome
    exact baseName_ne_empty_iff.mpr ⟨start, c, hdir.trans hdrop, hc⟩

/-! ## Shortest path names -/

/-- The names of the place that a path name leads to, from the inside out. -/
def place (path : String) : List String := (components path).foldl (enter (isAbsolute path)) []

theorem normalize_eq (path : String) : normalize path =
    if (rootSlashes path ++ String.intercalate "/" (place path).reverse).isEmpty then "."
    else rootSlashes path ++ String.intercalate "/" (place path).reverse := rfl

theorem foldl_enter (absolute : Bool) {place down : List String} (h : ∀ name ∈ down, name ≠ "..") :
    down.foldl (enter absolute) place = down.reverse ++ place := by
  induction down generalizing place with
  | nil => rfl
  | cons name down ih =>
    have hname : enter absolute place name = name :: place :=
      if_pos (bne_iff_ne.mpr (h name (List.mem_cons_self ..)))
    rw [List.foldl_cons, hname, ih fun n hn => h n (List.mem_cons_of_mem _ hn), List.reverse_cons,
      List.append_assoc, List.singleton_append]

theorem length_pos_of_ne {s : String} (h : s ≠ "") : 0 < s.length := by
  rw [← String.length_toList, List.length_pos_iff]
  exact fun he => h (String.toList_eq_nil_iff.mp he)

variable {name : String} {here down : List String}

theorem length_intercalate_pos (h : name ≠ "") (down : List String) :
    0 < (String.intercalate "/" (name :: down)).length := by
  have hname := length_pos_of_ne h
  cases down with
  | nil => simpa using hname
  | cons other ns =>
    rw [String.intercalate_cons_cons, String.length_append, String.length_append]
    omega

theorem length_intercalate_lt (h : name ≠ "") (here down : List String) :
    (String.intercalate "/" here).length < (String.intercalate "/" (here ++ name :: down)).length := by
  have hpos := length_intercalate_pos h down
  by_cases hhere : here = []
  · rw [hhere, List.nil_append, String.intercalate_nil]
    exact hpos
  · rw [String.intercalate_append_of_ne_nil hhere (List.cons_ne_nil _ _), String.length_append,
      String.length_append]
    omega

theorem intercalate_ne_dot (h : name ≠ "") (hdot : name ≠ ".") (here down : List String) :
    String.intercalate "/" (here ++ name :: down) ≠ "." := by
  intro he
  have hlength := congrArg String.length he
  have hone : ".".length = 1 := rfl
  have hslash : "/".length = 1 := rfl
  by_cases hhere : here = []
  · subst hhere
    cases down with
    | nil => exact hdot (by simpa using he)
    | cons other down =>
      have hname := length_pos_of_ne h
      rw [List.nil_append, String.intercalate_cons_cons, String.length_append,
        String.length_append] at hlength
      omega
  · have hpos := length_intercalate_pos h down
    rw [String.intercalate_append_of_ne_nil hhere (List.cons_ne_nil _ _), String.length_append,
      String.length_append] at hlength
    omega

theorem normalize_ne_of_place (hslashes : slashes path = slashes other)
    (hplace : (place path).reverse = (place other).reverse ++ name :: down)
    (h : name ≠ "") (hdot : name ≠ ".") : normalize path ≠ normalize other := by
  have hlt := length_intercalate_lt h (place other).reverse down
  have hne := intercalate_ne_dot h hdot (place other).reverse down
  rw [normalize_eq, normalize_eq, hplace, rootSlashes_congr hslashes]
  generalize rootSlashes other = root
  generalize String.intercalate "/" ((place other).reverse ++ name :: down) = longer at hlt hne
  generalize String.intercalate "/" (place other).reverse = shorter at hlt
  have hlonger : (root ++ longer).isEmpty = false := by
    rw [← Bool.not_eq_true, String.isEmpty_iff, ← String.length_eq_zero_iff, String.length_append]
    omega
  rw [hlonger]
  simp only [Bool.false_eq_true, if_false]
  split
  · rename_i hempty
    obtain ⟨rfl, rfl⟩ := String.append_eq_empty_iff.mp (String.isEmpty_iff.mp hempty)
    rwa [String.empty_append]
  · intro he
    have hlength := congrArg String.length he
    rw [String.length_append, String.length_append] at hlength
    omega

/-! ## Leading down -/

/-- The path name leads from a directory down along the names. -/
structure Under (docs : String) (down : List String) (path : String) : Prop where
  slashes : slashes path = slashes docs
  /-- Dots lead nowhere. -/
  names : ∃ dots, (∀ name ∈ dots, name = ".") ∧ names path = names docs ++ dots ++ down
  named : down ≠ [] → baseName path ≠ ""
  plain : ∀ name ∈ down, name ≠ "." ∧ name ≠ ".."

/-- The path name leads down from wherever it is looked at, and names what it leads to. -/
structure LeadsDown (path : String) : Prop where
  relative : isAbsolute path = false
  named : baseName path ≠ ""
  names : ∃ dots, (∀ name ∈ dots, name = ".") ∧ names path = dots ++ components path
  ups : ".." ∉ components path
  nonempty : components path ≠ []

theorem under_join {docs : String} (h : LeadsDown path) (hdocs : docs.isEmpty = false) :
    Under docs (components path) (join docs path) where
  slashes := slashes_join h.relative hdocs
  names := by
    obtain ⟨dots, hdots, hnames⟩ := h.names
    exact ⟨dots, hdots, by rw [names_join h.relative hdocs, hnames, List.append_assoc]⟩
  named _ := by
    obtain ⟨cs, c, hpath, hc⟩ := baseName_ne_empty_iff.mp h.named
    obtain ⟨start, -, hjoin⟩ := toList_join h.relative hdocs
    refine baseName_ne_empty_iff.mpr ⟨start ++ '/' :: cs, c, ?_, hc⟩
    rw [hjoin, hpath, List.append_assoc, List.cons_append]
  plain name hname := by
    refine ⟨?_, fun he => h.ups (he ▸ hname)⟩
    rw [components_eq, List.mem_filter] at hname
    exact bne_iff_ne.mp hname.2

namespace Under

variable {docs : String}

theorem isAbsolute (h : Under docs down path) : isAbsolute path = isAbsolute docs := by
  rw [isAbsolute_eq, isAbsolute_eq, h.slashes]

theorem components (h : Under docs down path) : components path = components docs ++ down := by
  obtain ⟨dots, hdots, hnames⟩ := h.names
  have hnone : dots.filter (· != ".") = [] :=
    List.filter_eq_nil_iff.mpr fun name hn => by simp [hdots name hn]
  have hall : down.filter (· != ".") = down :=
    List.filter_eq_self.mpr fun name hn => bne_iff_ne.mpr (h.plain name hn).1
  rw [components_eq, components_eq, hnames, List.filter_append, List.filter_append, hnone, hall,
    List.append_nil]

theorem isEmpty (h : Under docs down path) (hdocs : docs.isEmpty = false) :
    path.isEmpty = false := by
  rw [← Bool.not_eq_true, String.isEmpty_iff]
  rintro rfl
  obtain ⟨dots, -, hnames⟩ := h.names
  rcases slashes_ne_zero_or hdocs with hslashes | hdocs
  · exact hslashes h.slashes.symm
  · exact List.append_ne_nil_of_left_ne_nil (List.append_ne_nil_of_left_ne_nil hdocs _) _ hnames.symm

theorem length_le (h : Under docs down path) : down.length ≤ path.length := by
  obtain ⟨dots, -, hnames⟩ := h.names
  have hlength := length_names_le path
  rw [hnames, List.length_append] at hlength
  omega

/-- The path name of the directory around leads down along all names but the last. -/
theorem dirName (h : Under docs (down ++ [name]) path) :
    Under docs down (dirName path) ∧ baseName path = name := by
  have hbase := h.named (by simp)
  obtain ⟨dots, hdots, hnames⟩ := h.names
  rw [names_dirName hbase, ← List.append_assoc] at hnames
  obtain ⟨hdirectory, hname⟩ := List.append_inj' hnames rfl
  refine ⟨⟨(slashes_dirName path).trans h.slashes, ⟨dots, hdots, hdirectory⟩, fun hne => ?_,
    fun n hn => h.plain n (List.mem_append_left _ hn)⟩, List.singleton_inj.mp hname⟩
  refine baseName_dirName ?_
  rw [hdirectory]
  exact List.append_ne_nil_of_right_ne_nil _ hne

theorem named_plain (h : Under docs down path) (hne : down ≠ []) :
    Store.needsDirectory path = false ∧ Store.endsInDot path = false := by
  obtain ⟨down, name, rfl⟩ : ∃ init name, down = init ++ [name] :=
    ⟨_, _, (List.dropLast_concat_getLast hne).symm⟩
  have hdot : name ≠ "." := (h.plain name (by simp)).1
  have hbase := h.named hne
  obtain ⟨dots, -, hnames⟩ := h.names
  have hname := h.dirName.2
  rw [hname] at hbase
  refine ⟨?_, ?_⟩
  · simp [Store.needsDirectory, hname, hbase, hdot]
  · rw [Store.endsInDot, ← names_eq, hnames, ← List.append_assoc, List.getLast?_concat]
    simpa using hdot

theorem normalize_eq (h : Under docs [] path) : normalize path = normalize docs := by
  have hplace : place path = place docs := by
    rw [place, h.components, List.append_nil, h.isAbsolute]
    rfl
  rw [PathName.normalize_eq, PathName.normalize_eq, hplace, rootSlashes_congr h.slashes]

/-- The shortest path names tell the directory from what lies in it. -/
theorem normalize_ne (h : Under docs down path) (hne : down ≠ []) :
    normalize path ≠ normalize docs := by
  obtain ⟨name, down, rfl⟩ := List.exists_cons_of_ne_nil hne
  have hplace : (place path).reverse = (place docs).reverse ++ name :: down := by
    rw [place, h.components, List.foldl_append, foldl_enter _ fun n hn => (h.plain n hn).2,
      h.isAbsolute, List.reverse_append, List.reverse_reverse]
    rfl
  have hname : name ∈ PathName.names path := by
    obtain ⟨dots, -, hnames⟩ := h.names
    rw [hnames]
    exact List.mem_append_right _ (List.mem_cons_self ..)
  exact normalize_ne_of_place h.slashes hplace (ne_empty_of_mem_names hname)
    (h.plain name (List.mem_cons_self ..)).1

end Under

end HeaderDocs.PathName
