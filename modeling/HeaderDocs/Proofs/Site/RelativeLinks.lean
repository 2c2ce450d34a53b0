import HeaderDocs.Proofs.Files.Ways
import HeaderDocs.Site.Link

/-!
# Links from page to page

A page is served from a directory of its own, from the directory around it if it is the index of that, or
from a file. A link from it is followed from that directory, or from the one around the file, and leads to
what the page it names is served from. The index of the whole site has no directory to name in a link.

* `PageAddress.under_pageDirectory`: the directory that a page is served from.
* `relativeAddress?_leadsTo`: the address of a page leads there from any other page.
* `Linker.resolve_leadsTo`: so do links to symbols.
-/
namespace HeaderDocs.Site

open HeaderDocs.PathName

structure PageAddress where
  /-- The names of the directories around it, from the outside in. -/
  directory : List String
  /-- The name of its file, without the ending. -/
  stem : String
  entries : ∀ name ∈ directory ++ [stem], IsEntry name

namespace PageAddress

variable (page : PageAddress)

def file : String := page.stem ++ ".md"

def path : String := String.intercalate "/" (page.directory ++ [page.file])

/-- What the page is served from, by the names that lead there. -/
def place (directories : Bool) : List String :=
  if directories then
    if page.stem = "index" then page.directory else page.directory ++ [page.stem]
  else page.directory ++ [page.file]

def base (directories : Bool) : List String :=
  if directories then page.place true else page.directory

/-- A link of the page leads to another page; an empty one leads to the page itself. -/
def LeadsTo (directories : Bool) (way : String) (target : PageAddress) : Prop :=
  if way = "" then page = target
  else follow? (page.base directories) way = some (target.place directories)

/-! ## Path names of pages -/

theorem directory_entry {name : String} (h : name ∈ page.directory) : IsEntry name :=
  page.entries name (List.mem_append_left _ h)

theorem stem_entry : IsEntry page.stem := page.entries _ (by simp)

theorem length_file : page.file.length = page.stem.length + 3 :=
  String.length_append _ _

theorem file_ne_of_length {name : String} (h : name.length < 3) : page.file ≠ name := by
  intro he
  have hlength := page.length_file
  rw [he] at hlength
  omega

theorem file_entry : IsEntry page.file where
  nonempty := page.file_ne_of_length (by decide)
  dot := page.file_ne_of_length (by decide)
  up := page.file_ne_of_length (by decide)
  noSlash h := by
    rw [file, String.toList_append, List.mem_append] at h
    exact h.elim page.stem_entry.noSlash (by decide)

theorem path_entry {name : String} (h : name ∈ page.directory ++ [page.file]) : IsEntry name := by
  rcases List.mem_append.mp h with h | h
  · exact page.directory_entry h
  · exact List.mem_singleton.mp h ▸ page.file_entry

theorem under_path : Under "" (page.directory ++ [page.file]) page.path :=
  under_intercalate fun _ => page.path_entry

theorem path_inj {page other : PageAddress} (h : page.path = other.path) : page = other := by
  have hread (p : PageAddress) : names p.path = p.directory ++ [p.file] :=
    names_intercalate fun name hn => ⟨(p.path_entry hn).nonempty, (p.path_entry hn).noSlash⟩
  have hnames := congrArg names h
  rw [hread, hread] at hnames
  obtain ⟨hdirectory, hfile⟩ := List.append_inj' hnames rfl
  have hstem : page.stem = other.stem := by
    have hlist := congrArg String.toList (List.singleton_inj.mp hfile)
    rw [file, file, String.toList_append, String.toList_append] at hlist
    exact String.toList_inj.mp (List.append_cancel_right hlist)
  cases page
  cases other
  cases hdirectory
  cases hstem
  rfl

/-- The path name of a page without its ending. -/
def stemPath : String := String.intercalate "/" (page.directory ++ [page.stem])

theorem path_eq : page.path = page.stemPath ++ ".md" := by
  unfold path stemPath file
  by_cases h : page.directory = []
  · rw [h, List.nil_append, List.nil_append, String.intercalate_singleton,
      String.intercalate_singleton]
  · rw [String.intercalate_append_of_ne_nil h (List.cons_ne_nil _ _),
      String.intercalate_append_of_ne_nil h (List.cons_ne_nil _ _), String.intercalate_singleton,
      String.intercalate_singleton, String.append_assoc, String.append_assoc, String.append_assoc]

theorem under_stemPath : Under "" (page.directory ++ [page.stem]) page.stemPath :=
  under_intercalate page.entries

theorem pageDirectory_path : pageDirectory page.path =
    if page.stem = "index" then dirName page.stemPath else page.stemPath := by
  have hlist : page.path.toList = page.stemPath.toList ++ ".md".toList := by
    rw [path_eq, String.toList_append]
  have hsuffix : ".md".toList.isSuffixOf page.path.toList = true := by
    rw [List.isSuffixOf_iff_suffix, hlist]
    exact List.suffix_append _ _
  have hstem : String.ofList (page.path.toList.take (page.path.toList.length - 3)) = page.stemPath := by
    have hlength : page.path.toList.length - 3 = page.stemPath.toList.length := by
      rw [hlist, List.length_append]
      exact Nat.add_sub_cancel ..
    rw [hlength, hlist, List.take_left, String.ofList_toList]
  have hbase : baseName page.stemPath = page.stem := page.under_stemPath.dirName.2
  rw [pageDirectory, if_pos hsuffix, hstem, hbase]
  by_cases h : page.stem = "index" <;> simp [h]

/-- A page is found where it is served from. -/
theorem under_pageDirectory : Under "" (page.place true) (pageDirectory page.path) := by
  rw [pageDirectory_path, place, if_pos rfl]
  split
  · exact page.under_stemPath.dirName.1
  · exact page.under_stemPath

theorem place_entry {directories : Bool} {name : String} (h : name ∈ page.place directories) :
    IsEntry name := by
  unfold place at h
  split at h
  · split at h
    · exact page.directory_entry h
    · exact page.entries name h
  · exact page.path_entry h

/-- Only the index of the whole site is served from the top. -/
theorem place_ne_nil (h : page.path ≠ "index.md") : page.place true ≠ [] := by
  rw [place, if_pos rfl]
  split
  · rename_i hstem
    intro hdirectory
    refine h ?_
    rw [path, file, hdirectory, hstem]
    rfl
  · exact List.append_ne_nil_of_right_ne_nil _ (List.cons_ne_nil _ _)

end PageAddress

/-! ## Links -/

/-- The address of a page in a link leads there from any page, whatever the working directory. -/
theorem relativeAddress?_leadsTo (cwd : String) (current target : PageAddress) {directories : Bool}
    (htop : directories = true → target.path ≠ "index.md") :
    ∃ way, relativeAddress? cwd target.path current.path directories = some way ∧ way ≠ "" ∧
      follow? (current.base directories) way = some (target.place directories) := by
  cases directories with
  | true =>
    have hplace := target.place_ne_nil (htop rfl)
    have hne : (pageDirectory target.path).isEmpty = false := by
      rw [← Bool.not_eq_true, String.isEmpty_iff]
      intro he
      have hnames := target.under_pageDirectory.components
      rw [he] at hnames
      exact hplace hnames.symm
    obtain ⟨way, hway, -, hfollow⟩ := follow?_relativeTo? cwd current.under_pageDirectory
      target.under_pageDirectory hne fun _ => target.place_entry
    refine ⟨way ++ "/", ?_, ?_, ?_⟩
    · rw [relativeAddress?, if_pos rfl, hway]
      rfl
    · intro he
      exact absurd (String.append_eq_empty_iff.mp he).2 (by decide)
    · rw [follow?_slash]
      exact hfollow
  | false =>
    have hne : target.path.isEmpty = false := by
      rw [← Bool.not_eq_true, String.isEmpty_iff, target.path_eq]
      intro he
      exact absurd (String.append_eq_empty_iff.mp he).2 (by decide)
    exact follow?_relativeTo? cwd current.under_path.dirName.1 target.under_path hne
      fun _ => target.path_entry

namespace Linker

/-- Links between pages can be followed: the address of a page leads from the current page to what that
page is served from, and a link to a symbol leads to the page and has the anchor that the symbol has in an
address from the top of the site. -/
theorem resolve_leadsTo (lk : Linker) (current target : PageAddress)
    (htop : lk.directories = true → target.path ≠ "index.md") :
    (∃ way, relativeAddress? lk.cwd target.path current.path lk.directories = some way ∧ way ≠ "" ∧
      current.LeadsTo lk.directories way target) ∧
    ∀ name symbol, lk.symbols.find? (lookupName name) = some symbol → symbol.page = target.path →
      lk.resolve name none = some (target.path ++ "#" ++ symbol.anchor) ∧
      ∃ way, lk.resolve name (some current.path) = some (way ++ "#" ++ symbol.anchor) ∧
        current.LeadsTo lk.directories way target := by
  obtain ⟨way, hway, hne, hfollow⟩ := relativeAddress?_leadsTo lk.cwd current target htop
  have hleads : current.LeadsTo lk.directories way target := by
    rw [PageAddress.LeadsTo, if_neg hne]
    exact hfollow
  refine ⟨⟨way, hway, hne, hleads⟩, ?_⟩
  intro name symbol hsymbol hpage
  constructor
  · rw [resolve, hsymbol, ← hpage]
  · by_cases hsame : symbol.page = current.path
    · -- a page links to itself by the anchor alone
      refine ⟨"", ?_, ?_⟩
      · simp [resolve, hsymbol, hsame]
      · rw [PageAddress.LeadsTo, if_pos rfl]
        exact PageAddress.path_inj (hsame.symm.trans hpage)
    · refine ⟨way, ?_, hleads⟩
      have hresolve : lk.resolve name (some current.path) =
          (relativeAddress? lk.cwd symbol.page current.path lk.directories).map
            (· ++ "#" ++ symbol.anchor) := by
        simp [resolve, hsymbol, hsame]
      rw [hresolve, hpage, hway]
      rfl

def oneFunction : Linker where
  symbols := [(some "run", ⟨some "run", .function, "api/functions.md", "func-run", .text "API"⟩)]
  directories := true
  cwd := "/srv"

/-- A link from an overview to the function. -/
theorem resolve_leadsTo_function :
    ∃ way, oneFunction.resolve "run()" (some "api/index.md") = some (way ++ "#" ++ "func-run") ∧
      (PageAddress.mk ["api"] "index" (by decide)).LeadsTo true way
        (PageAddress.mk ["api"] "functions" (by decide)) :=
  ((oneFunction.resolve_leadsTo (PageAddress.mk ["api"] "index" (by decide))
    (PageAddress.mk ["api"] "functions" (by decide)) (by decide)).2 "run()"
    ⟨some "run", .function, "api/functions.md", "func-run", .text "API"⟩ rfl (by decide)).2

end Linker

end HeaderDocs.Site
