import HeaderDocs.Proofs.Files.Ways
import HeaderDocs.Proofs.Site.Fences
import HeaderDocs.Proofs.Site.Spans
import Mathlib.Data.List.Forall2

/-!
# Linking only puts links around names

What automatic linking writes is the text it was given, with links around names in backquotes. Fenced code
and headings stay as they are. Linking once more changes nothing, unless a call of an unknown function
stands between a name and another call and shares its backquotes with them: it keeps the second call from
being found, until the link around the name keeps it from being found itself.

* `wraps_linkLine`, `linkLine_again`: one line.
* `linkNames_wraps`: whole texts.
-/
namespace HeaderDocs.Site.Linker

open HeaderDocs.Text

variable {lk : Linker} {current : Option String}

/-! ## Addresses -/

/-- What links are made from is without backquotes and line feeds. -/
structure Clean (lk : Linker) : Prop where
  symbols : ∀ entry ∈ lk.symbols, ∀ c ∈ entry.2.page.toList ++ entry.2.anchor.toList,
    c ≠ '\x60' ∧ c ≠ '\n'
  cwd : ∀ c ∈ lk.cwd.toList, c ≠ '\x60' ∧ c ≠ '\n'

theorem mem_dirName {path : String} {c : Char} (h : c ∈ (PathName.dirName path).toList) :
    c ∈ path.toList := by
  have hhead : (path.toList.reverse.dropWhile (· != '/')).reverse <+: path.toList :=
    dropEndWhile_isPrefix _ _
  unfold PathName.dirName at h
  dsimp only at h
  split at h <;> rw [String.toList_ofList] at h
  · exact hhead.subset h
  · exact hhead.subset ((dropEndWhile_isPrefix _ _).subset h)

theorem mem_pageDirectory {page : String} {c : Char} (h : c ∈ (pageDirectory page).toList) :
    c ∈ page.toList := by
  have htaken : c ∈ (String.ofList (page.toList.take (page.toList.length - 3))).toList →
      c ∈ page.toList := by
    rw [String.toList_ofList]
    exact List.mem_of_mem_take
  unfold pageDirectory at h
  dsimp only at h
  by_cases hmd : ".md".toList.isSuffixOf page.toList = true
  · rw [if_pos hmd] at h
    split at h
    · exact htaken (mem_dirName h)
    · exact htaken h
  · rw [if_neg hmd] at h
    split at h
    · exact mem_dirName h
    · exact h

theorem mem_relativeAddress? {cwd target page way : String} {directories : Bool} {c : Char}
    (hdot : c ≠ '.') (hslash : c ≠ '/')
    (h : relativeAddress? cwd target page directories = some way) (hc : c ∈ way.toList) :
    c ∈ target.toList ∨ c ∈ cwd.toList := by
  unfold relativeAddress? at h
  split at h
  · obtain ⟨way, hway, rfl⟩ := Option.map_eq_some_iff.mp h
    rw [String.toList_append, List.mem_append] at hc
    rcases hc with hc | hc
    · exact (PathName.mem_relativeTo? hdot hslash hway hc).imp_left mem_pageDirectory
    · exact absurd (List.mem_singleton.mp hc) hslash
  · exact PathName.mem_relativeTo? hdot hslash h hc

/-- The address of a symbol is made of its page and anchor, and of the working directory. -/
theorem mem_resolve {name address : String} {c : Char} (hdot : c ≠ '.') (hslash : c ≠ '/')
    (hsign : c ≠ '#') (h : lk.resolve name current = some address) (hc : c ∈ address.toList) :
    (∃ entry ∈ lk.symbols, c ∈ entry.2.page.toList ++ entry.2.anchor.toList) ∨
      c ∈ lk.cwd.toList := by
  unfold resolve at h
  cases hfind : lk.symbols.find? (lookupName name) with
  | none => rw [hfind] at h; cases h
  | some symbol =>
    obtain ⟨entry, hentry, rfl⟩ := Option.map_eq_some_iff.mp hfind
    have hmem := List.mem_of_find?_eq_some hentry
    have hanchor : ∀ before : String, (c ∈ before.toList → c ∈ entry.2.page.toList ∨ c ∈ lk.cwd.toList) →
        c ∈ (before ++ "#" ++ entry.2.anchor).toList →
        (∃ entry ∈ lk.symbols, c ∈ entry.2.page.toList ++ entry.2.anchor.toList) ∨
          c ∈ lk.cwd.toList := by
      intro before hbefore hc
      rw [String.toList_append, String.toList_append, List.mem_append, List.mem_append] at hc
      obtain (hc | hc) | hc := hc
      · exact (hbefore hc).imp_left fun hc => ⟨entry, hmem, List.mem_append_left _ hc⟩
      · exact absurd (List.mem_singleton.mp hc) hsign
      · exact .inl ⟨entry, hmem, List.mem_append_right _ hc⟩
    rw [hfind] at h
    cases current with
    | none =>
      obtain rfl := Option.some.inj h
      exact hanchor _ .inl hc
    | some page =>
      dsimp only at h
      split at h
      · obtain rfl := Option.some.inj h
        exact hanchor "" nofun (by rwa [String.empty_append])
      · obtain ⟨way, hway, rfl⟩ := Option.map_eq_some_iff.mp h
        exact hanchor way (mem_relativeAddress? hdot hslash hway) hc

theorem Clean.resolve {name address : String} (h : lk.Clean)
    (hr : lk.resolve name current = some address) :
    '\x60' ∉ address.toList ∧ '\n' ∉ address.toList := by
  have hclean : ∀ c ∈ address.toList, c ≠ '.' → c ≠ '/' → c ≠ '#' → c ≠ '\x60' ∧ c ≠ '\n' := by
    intro c hc hdot hslash hsign
    rcases mem_resolve hdot hslash hsign hr hc with ⟨entry, hentry, hmem⟩ | hmem
    · exact h.symbols entry hentry c hmem
    · exact h.cwd c hmem
  exact ⟨fun hc => (hclean _ hc (by decide) (by decide) (by decide)).1 rfl,
    fun hc => (hclean _ hc (by decide) (by decide) (by decide)).2 rfl⟩

/-! ## Links around names -/

/-- A name or a call in backquotes that has an address. -/
def IsLabel (lk : Linker) (current : Option String) (label : List Char) (address : String) : Prop :=
  ∃ name, (label = name ∨ label = name ++ ['(', ')']) ∧
    lk.resolve (String.ofList name) current = some address

/-- A text, and the same text with links around some of the names in backquotes. -/
inductive Wraps (lk : Linker) (current : Option String) : List Char → List Char → Prop where
  | nil : Wraps lk current [] []
  | char (c : Char) {cs linked : List Char} : Wraps lk current cs linked →
      Wraps lk current (c :: cs) (c :: linked)
  | link {label cs linked : List Char} {address : String} : IsLabel lk current label address →
      Wraps lk current cs linked →
      Wraps lk current ('\x60' :: label ++ '\x60' :: cs) (linkText label address ++ linked)

namespace Wraps

variable {cs linked more moreLinked : List Char}

theorem before (h : Wraps lk current cs linked) (start : List Char) :
    Wraps lk current (start ++ cs) (start ++ linked) := by
  induction start with
  | nil => exact h
  | cons c start ih => exact .char c ih

theorem refl (cs : List Char) : Wraps lk current cs cs := by
  have h := before (.nil : Wraps lk current [] []) cs
  rwa [List.append_nil] at h

theorem append (h : Wraps lk current cs linked) (hmore : Wraps lk current more moreLinked) :
    Wraps lk current (cs ++ more) (linked ++ moreLinked) := by
  induction h with
  | nil => exact hmore
  | char c _ ih => exact .char c ih
  | link hlabel _ ih =>
    rw [List.append_assoc, List.cons_append, List.append_assoc]
    exact .link hlabel ih

/-- A link starts with a square bracket, so any other first character was there before. -/
theorem cons_of_ne {c : Char} (hc : c ≠ '[') (h : Wraps lk current cs (c :: linked)) :
    ∃ rest, cs = c :: rest ∧ Wraps lk current rest linked := by
  generalize hwhole : c :: linked = whole at h
  cases h with
  | nil => cases hwhole
  | char d h =>
    obtain ⟨rfl, rfl⟩ := List.cons.inj hwhole
    exact ⟨_, rfl, h⟩
  | link _ _ => exact absurd (List.cons.inj hwhole).1 hc

theorem isFence_of_linked (h : Wraps lk current cs linked) (hfence : isFence linked = true) :
    isFence cs = true := by
  obtain ⟨rest, rfl⟩ := isFence_iff.mp hfence
  obtain ⟨_, rfl, hsecond⟩ := cons_of_ne (by decide) h
  obtain ⟨_, rfl, hthird⟩ := cons_of_ne (by decide) hsecond
  obtain ⟨_, rfl, -⟩ := cons_of_ne (by decide) hthird
  rfl

theorem heading_of_linked (h : Wraps lk current cs linked)
    (hheading : (trimStart linked).head? = some '#') : (trimStart cs).head? = some '#' := by
  induction h with
  | nil => exact hheading
  | char c _ ih =>
    cases hc : isSpace c with
    | true =>
      rw [trimStart, List.dropWhile_cons_of_pos hc] at hheading ⊢
      exact ih hheading
    | false =>
      rw [trimStart_eq_self hc] at hheading ⊢
      exact hheading
  | @link label _ linked address _ _ _ =>
    obtain ⟨rest, hrest⟩ : ∃ rest, linkText label address ++ linked = '[' :: rest := ⟨_, rfl⟩
    rw [hrest, trimStart_eq_self (by decide)] at hheading
    cases hheading

end Wraps

/-- Marks only put links around pieces. -/
theorem wraps_textFrom {k : Cut} {marks : Marks} (h : k.IsMarking marks)
    (hlabel : ∀ i address, marks i = some address → IsLabel lk current (k.piece i) address)
    {n i : Nat} (hn : i + n = k.last + 1) (hprev : marks (i - 1) = none) (hpos : 0 < i) :
    Wraps lk current (k.textFrom unmarked n i) (openText (marks i) ++ k.textFrom marks n i) := by
  induction n using Nat.strongRecOn generalizing i with
  | ind n ih =>
    have hinside : ∀ address, marks i = some address → i < k.last := fun address hi =>
      (h.inside i (by rw [hi]; nofun)).2
    cases n with
    | zero =>
      cases hi : marks i with
      | none => exact .nil
      | some address =>
        have hlt := hinside address hi
        omega
    | succ n =>
      cases hi : marks i with
      | none =>
        have hrest := ih n (Nat.lt_succ_self n) (i := i + 1) (by omega) hi (Nat.succ_pos i)
        have hbody : k.body marks i = k.piece i ++ openText (marks (i + 1)) := by
          rw [Cut.body, hprev]
          rfl
        have h := hrest.before ('\x60' :: k.piece i)
        rw [Cut.textFrom, Cut.textFrom, Cut.body_unmarked, hbody]
        simpa [openText] using h
      | some address =>
        have hlt := hinside address hi
        obtain ⟨n, rfl⟩ : ∃ m, n = m + 1 := ⟨n - 1, by omega⟩
        have hnext := h.apart i (by rw [hi]; nofun)
        have hrest := ih n (by omega) (i := i + 2) (by omega) hnext (by omega)
        have hbody : k.body marks (i + 1) =
            closeText (some address) ++ k.piece (i + 1) ++ openText (marks (i + 2)) := by
          rw [Cut.body, Nat.add_sub_cancel, hi]
        have h := Wraps.link (hlabel i address hi) (hrest.before (k.piece (i + 1)))
        rw [Cut.textFrom, Cut.textFrom, Cut.textFrom, Cut.textFrom, Cut.body_unmarked,
          Cut.body_unmarked, Cut.body_of_unmarked hprev hnext, hbody]
        simpa [linkText, openText, closeText] using h

theorem wraps_text {k : Cut} {marks : Marks} (h : k.IsMarking marks)
    (hlabel : ∀ i address, marks i = some address → IsLabel lk current (k.piece i) address) :
    Wraps lk current (k.text unmarked) (k.text marks) := by
  have hfirst : marks 0 = none := Decidable.byContradiction fun hm =>
    Nat.lt_irrefl 0 (h.inside 0 hm).1
  have hrest := wraps_textFrom h hlabel (n := k.last) (i := 1) (Nat.add_comm _ _) hfirst Nat.one_pos
  have hbody : k.body marks 0 = k.piece 0 ++ openText (marks 1) := by
    rw [Cut.body, hfirst]
    rfl
  rw [Cut.text, Cut.text, Cut.body_unmarked, hbody, List.append_assoc]
  exact hrest.before _

/-! ## One line -/

/-- The links in a line after both rules. -/
def linked (lk : Linker) (current : Option String) (k : Cut) : Marks :=
  (names lk current).after k ((calls lk current).after k unmarked)

/-- Three texts in backquotes, each of which shares one with the next: a known name, a call of an
unknown function, and a further call. -/
def Tangled (lk : Linker) (current : Option String) (line : List Char) : Prop :=
  ∃ name call other,
    '\x60' :: name ++ '\x60' :: call ++ '\x60' :: other ++ ['\x60'] <:+: line ∧
    ((names lk current).isSpan name = true ∧ (names lk current).address? name ≠ none) ∧
    ((calls lk current).isSpan call = true ∧ (calls lk current).address? call = none) ∧
    (calls lk current).isSpan other = true

theorem label_of_call {span : List Char} {address : String}
    (hspan : (calls lk current).isSpan span = true)
    (h : (calls lk current).address? span = some address) : IsLabel lk current span address := by
  obtain ⟨name, rfl, -⟩ := exists_of_isCall lk current hspan
  have htake : (name ++ ['(', ')']).take ((name ++ ['(', ')']).length - 2) = name := by simp
  rw [calls] at h
  dsimp only at h
  rw [htake] at h
  exact ⟨name, .inr rfl, h⟩

/-- A rule adds links with the addresses of what it finds. -/
theorem after_label {kind : SpanKind} {k : Cut} {marks : Marks}
    (hkind : ∀ span address, kind.isSpan span = true → kind.address? span = some address →
      IsLabel lk current span address)
    (h : ∀ i address, marks i = some address → IsLabel lk current (k.piece i) address) (i : Nat)
    (address : String) (hi : kind.after k marks i = some address) :
    IsLabel lk current (k.piece i) address := by
  cases hp : kind.picked k marks i with
  | true =>
    rw [SpanKind.after_of_picked hp] at hi
    exact hkind _ _ (SpanKind.fits_of_picked hp).isSpan hi
  | false =>
    rw [SpanKind.after_of_not_picked hp] at hi
    exact h i address hi

theorem linked_label (k : Cut) (i : Nat) (address : String)
    (hi : linked lk current k i = some address) : IsLabel lk current (k.piece i) address :=
  have hnone : ∀ i address, unmarked i = some address → IsLabel lk current (k.piece i) address :=
    fun _ _ hi => nomatch hi
  after_label (fun span _ _ h => ⟨span, .inl rfl, h⟩) (after_label (fun _ _ => label_of_call) hnone)
    i address hi

section

variable (hclean : lk.Clean) {k : Cut} {marks : Marks} (h : k.IsMarking marks)

include hclean h

theorem isMarking_calls : k.IsMarking ((calls lk current).after k marks) :=
  SpanKind.isMarking_after (fun _ _ hr => (hclean.resolve hr).1) h

theorem isMarking_names : k.IsMarking ((names lk current).after k marks) :=
  SpanKind.isMarking_after (fun _ _ hr => (hclean.resolve hr).1) h

theorem substitute_line :
    substitute (lk.nameRule current) (substitute (lk.callRule current) (k.text marks)) =
      k.text ((names lk current).after k ((calls lk current).after k marks)) := by
  rw [(finds_calls lk current).substitute_text (fun _ => noBracket_of_isCall lk current) h,
    (finds_names lk current).substitute_text (fun _ => noBracket_of_isName lk current)
      (isMarking_calls hclean h)]

end

theorem wraps_linkLine (hclean : lk.Clean) (line : List Char) :
    Wraps lk current line (lk.linkLine current line) := by
  unfold linkLine
  split
  · exact .refl line
  · obtain ⟨k, rfl⟩ := Cut.exists_text line
    rw [substitute_line hclean k.isMarking_unmarked]
    exact wraps_text (isMarking_names hclean (isMarking_calls hclean k.isMarking_unmarked))
      (linked_label k)

/-- Unless it is tangled, the rule for calls finds nothing more in a line that is linked: a link around
a name takes a backquote only from calls that the rule has left out, and not from ones that it has picked
and that keep it from picking a further one. -/
theorem calls_after_linked {k : Cut} (h : ¬ Tangled lk current (k.text unmarked)) :
    (calls lk current).after k (linked lk current k) = linked lk current k := by
  have hstays : ∀ i, (calls lk current).after k unmarked i ≠ none → linked lk current k i ≠ none := by
    intro i hi
    rw [linked, SpanKind.after_of_marked hi]
    exact hi
  have hleft : ∀ i, (calls lk current).Fits k (linked lk current k) (i + 1) →
      (calls lk current).picked k unmarked i = true → linked lk current k (i - 1) = none := by
    intro i hfit hp
    have hspan := (SpanKind.fits_of_picked hp).isSpan
    obtain ⟨i, rfl⟩ :=
      Nat.exists_eq_add_one_of_ne_zero (Nat.ne_of_gt (SpanKind.fits_of_picked hp).inside.1)
    refine Decidable.byContradiction fun hlink => h ?_
    rw [Nat.add_sub_cancel] at hlink
    have hcall : (calls lk current).picked k unmarked i = false := by
      rw [SpanKind.picked, Bool.and_eq_true_iff, Bool.not_eq_true'] at hp
      exact hp.2
    have hname : (names lk current).picked k ((calls lk current).after k unmarked) i = true := by
      refine Bool.not_eq_false _ |>.mp fun hnot => hlink ?_
      rw [linked, SpanKind.after_of_not_picked hnot, SpanKind.after_of_not_picked hcall]
      rfl
    rw [linked, SpanKind.after_of_picked hname] at hlink
    have hunknown : (calls lk current).address? (k.piece (i + 1)) = none :=
      Decidable.byContradiction fun hknown => hstays (i + 1)
        (by rwa [SpanKind.after_of_picked hp]) hfit.freeBefore
    have hnamed := SpanKind.fits_of_picked hname
    exact ⟨_, _, _, k.infix_text hnamed.inside.1 hfit.inside.2, ⟨hnamed.isSpan, hlink⟩,
      ⟨hspan, hunknown⟩, hfit.isSpan⟩
  refine SpanKind.after_eq_self fun i hp => ?_
  have hfit := SpanKind.fits_of_picked hp
  rw [SpanKind.picked_eq (fun _ _ => rfl) hleft hfit] at hp
  refine Decidable.byContradiction fun hi => ?_
  rw [← SpanKind.after_of_picked hp] at hi
  exact hstays i hi hfit.free

/-- Linking a line once more changes nothing, unless it is tangled. -/
theorem linkLine_again (hclean : lk.Clean) {line : List Char} (h : ¬ Tangled lk current line) :
    lk.linkLine current (lk.linkLine current line) = lk.linkLine current line := by
  by_cases hheading : (trimStart line).head? = some '#'
  · rw [autoLink_heading lk current line hheading, autoLink_heading lk current line hheading]
  · have hstill : ¬ (trimStart (lk.linkLine current line)).head? = some '#' := fun hh =>
      hheading ((wraps_linkLine hclean line).heading_of_linked hh)
    obtain ⟨k, rfl⟩ := Cut.exists_text line
    have hmarking : k.IsMarking (linked lk current k) :=
      isMarking_names hclean (isMarking_calls hclean k.isMarking_unmarked)
    have honce : lk.linkLine current (k.text unmarked) = k.text (linked lk current k) := by
      rw [linkLine, if_neg (by simpa using hheading), substitute_line hclean k.isMarking_unmarked]
      rfl
    rw [honce] at hstill ⊢
    rw [linkLine, if_neg (by simpa using hstill), substitute_line hclean hmarking,
      calls_after_linked h, linked, SpanKind.after_after]

/-! ## Whole texts -/

theorem Wraps.newline_not_mem (hclean : lk.Clean) {cs linked : List Char}
    (h : Wraps lk current cs linked) (hcs : '\n' ∉ cs) : '\n' ∉ linked := by
  induction h with
  | nil => exact hcs
  | char c _ ih =>
    rw [List.mem_cons, not_or] at hcs ⊢
    exact ⟨hcs.1, ih hcs.2⟩
  | @link label cs linked address hlabel _ ih =>
    obtain ⟨name, -, hresolve⟩ := hlabel
    have haddress := (hclean.resolve hresolve).2
    simp only [List.cons_append, List.mem_cons, List.mem_append, not_or] at hcs
    simp [linkText, hcs.2.1, haddress, ih hcs.2.2.2]

/-- A fence that closes code stays at the start of its line. -/
theorem eq_of_isFence {line : List Char} (h : isFence line = true) : line = fence ++ line.drop 3 := by
  obtain ⟨rest, rfl⟩ := isFence_iff.mp h
  rfl

theorem wraps_linkLines (hclean : lk.Clean) (inCode : Bool) (ls : List (List Char)) :
    List.Forall₂ (Wraps lk current) ls (lk.linkLines current inCode ls) := by
  induction ls generalizing inCode with
  | nil => cases inCode <;> exact .nil
  | cons line ls ih =>
    cases inCode with
    | true =>
      cases hfence : isFence line with
      | true =>
        rw [linkLines_closing lk current hfence]
        have hline : Wraps lk current _ _ := (wraps_linkLine hclean (line.drop 3)).before fence
        rw [← eq_of_isFence hfence] at hline
        exact .cons hline (ih false)
      | false =>
        rw [linkLines_code lk current hfence]
        exact .cons (.refl line) (ih true)
    | false =>
      cases hopens : isFence line && ls.any isFence with
      | true =>
        rw [linkLines_opening lk current hopens]
        exact .cons (.refl line) (ih true)
      | false =>
        rw [linkLines_prose lk current hopens]
        exact .cons (wraps_linkLine hclean line) (ih false)

theorem wraps_intercalate {ls linked : List (List Char)}
    (h : List.Forall₂ (Wraps lk current) ls linked) :
    Wraps lk current (['\n'].intercalate ls) (['\n'].intercalate linked) := by
  induction h with
  | nil => exact .nil
  | @cons line linkedLine ls linked hline hrest ih =>
    cases hrest with
    | nil =>
      rw [List.intercalate_singleton, List.intercalate_singleton]
      exact hline
    | cons _ _ =>
      rw [List.intercalate_cons_cons, List.intercalate_cons_cons, List.append_assoc, List.append_assoc]
      exact hline.append (ih.before ['\n'])

theorem lines_linkNames (hclean : lk.Clean) (cs : List Char) :
    lines (lk.linkNames current cs) = lk.linkLines current false (lines cs) := by
  rw [linkNames_eq]
  refine lines_intercalate (linkLines_ne_nil lk current (lines_ne_nil cs)) fun linked hlinked => ?_
  obtain ⟨i, hi, rfl⟩ := List.mem_iff_getElem.mp hlinked
  have hwraps : List.Forall₂ (Wraps lk current) _ _ := wraps_linkLines hclean false (lines cs)
  have hi' : i < (lines cs).length := by rwa [hwraps.length_eq]
  exact (hwraps.get hi' hi).newline_not_mem hclean (newline_not_mem (List.getElem_mem hi'))

/-! ## Linking once more -/

/-- The part of a line in which names are linked. -/
def proseOf : Part → List Char → List Char
  | .prose, line => line
  | .code, _ => []
  | .closing, line => line.drop 3

/-- The parts of lines in which names are linked. -/
def prosesOf (inCode : Bool) (ls : List (List Char)) : List (List Char) :=
  List.zipWith proseOf (parts inCode ls) ls

theorem any_isFence_code {ls : List (List Char)} (h : ls.any isFence = true) :
    (lk.linkLines current true ls).any isFence = true := by
  obtain ⟨inner, rest, more, rfl, hinner⟩ := exists_fence h
  rw [linkLines_inner lk current hinner, List.any_append, List.any_cons,
    isFence_iff.mpr ⟨lk.linkLine current rest, rfl⟩]
  simp

theorem any_isFence_prose (hclean : lk.Clean) {ls : List (List Char)} (h : ls.any isFence = false) :
    (lk.linkLines current false ls).any isFence = false := by
  induction ls with
  | nil => rfl
  | cons line ls ih =>
    rw [List.any_cons, Bool.or_eq_false_iff] at h
    have hline : isFence (lk.linkLine current line) = false := Bool.eq_false_iff.mpr fun hf => by
      rw [(wraps_linkLine hclean line).isFence_of_linked hf] at h
      cases h.1
    rw [linkLines_prose lk current (by rw [h.1]; rfl), List.any_cons, hline, ih h.2]
    rfl

theorem linkLines_again (hclean : lk.Clean) {inCode : Bool} {ls : List (List Char)}
    (h : ∀ prose ∈ prosesOf inCode ls, ¬ Tangled lk current prose) :
    lk.linkLines current inCode (lk.linkLines current inCode ls) = lk.linkLines current inCode ls := by
  induction ls generalizing inCode with
  | nil => cases inCode <;> rfl
  | cons line ls ih =>
    rw [prosesOf] at h
    cases inCode with
    | true =>
      cases hfence : isFence line with
      | true =>
        rw [parts, if_pos hfence, List.zipWith_cons_cons, List.forall_mem_cons] at h
        have hclosing : isFence (fence ++ lk.linkLine current (line.drop 3)) = true :=
          isFence_iff.mpr ⟨_, rfl⟩
        have hline := linkLine_again hclean h.1
        rw [proseOf] at hline
        rw [linkLines_closing lk current hfence, linkLines_closing lk current hclosing, ih h.2,
          show (fence ++ lk.linkLine current (line.drop 3)).drop 3 = lk.linkLine current (line.drop 3)
            from rfl, hline]
      | false =>
        rw [parts, if_neg (by rw [hfence]; decide), List.zipWith_cons_cons, List.forall_mem_cons] at h
        rw [linkLines_code lk current hfence, linkLines_code lk current hfence, ih h.2]
    | false =>
      cases hopens : isFence line && ls.any isFence with
      | true =>
        rw [parts, if_pos hopens, List.zipWith_cons_cons, List.forall_mem_cons] at h
        obtain ⟨hfence, hany⟩ := Bool.and_eq_true_iff.mp hopens
        have hstill : (isFence line && (lk.linkLines current true ls).any isFence) = true := by
          rw [hfence, any_isFence_code hany]
          rfl
        rw [linkLines_opening lk current hopens, linkLines_opening lk current hstill, ih h.2]
      | false =>
        rw [parts, if_neg (by rw [hopens]; decide), List.zipWith_cons_cons, List.forall_mem_cons] at h
        have hstill : (isFence (lk.linkLine current line) &&
            (lk.linkLines current false ls).any isFence) = false := by
          cases hfence : isFence (lk.linkLine current line) with
          | false => rfl
          | true =>
            rw [(wraps_linkLine hclean line).isFence_of_linked hfence, Bool.true_and] at hopens
            exact (Bool.true_and _).trans (any_isFence_prose hclean hopens)
        have hline := linkLine_again hclean h.1
        rw [proseOf] at hline
        rw [linkLines_prose lk current hopens, linkLines_prose lk current hstill, hline, ih h.2]

/-- What becomes of the lines of a text in which names are linked. -/
structure KeepsLines (cs linked : List Char) : Prop where
  length : (lines linked).length = (lines cs).length
  /-- Code stays, with the fence that opens it. -/
  code : ∀ (i : Nat) (line : List Char), (lines cs)[i]? = some line →
    (parts false (lines cs))[i]? = some Part.code → (lines linked)[i]? = some line
  /-- The fence that closes code stays. -/
  closing : ∀ (i : Nat) (line : List Char), (lines cs)[i]? = some line →
    (parts false (lines cs))[i]? = some Part.closing →
    ∃ rest linkedRest, line = fence ++ rest ∧ (lines linked)[i]? = some (fence ++ linkedRest)
  /-- Headings stay. -/
  heading : ∀ (i : Nat) (line : List Char), (lines cs)[i]? = some line →
    (parts false (lines cs))[i]? = some Part.prose → (trimStart line).head? = some '#' → (lines linked)[i]? = some line

theorem isFence_of_closing {inCode : Bool} {ls : List (List Char)} {i : Nat} {line : List Char}
    (hline : ls[i]? = some line) (h : (parts inCode ls)[i]? = some Part.closing) : isFence line = true := by
  induction ls generalizing inCode i with
  | nil => cases hline
  | cons first ls ih =>
    cases i with
    | zero =>
      obtain rfl := Option.some.inj hline
      cases inCode <;> rw [parts] at h <;> split at h
      · cases h
      · cases h
      · assumption
      · cases h
    | succ i =>
      cases inCode <;> rw [parts] at h <;> split at h <;> exact ih hline h

theorem keepsLines_linkNames (hclean : lk.Clean) (cs : List Char) :
    KeepsLines cs (lk.linkNames current cs) := by
  have hlines : lines (lk.linkNames current cs) = _ := lines_linkNames hclean cs
  have hline : ∀ (i : Nat) (line : List Char) (part : Part), (lines cs)[i]? = some line →
      (parts false (lines cs))[i]? = some part →
      (lines (lk.linkNames current cs))[i]? = some (lk.linkAs current part line) := by
    intro i line part hl hp
    rw [hlines, linkLines, List.getElem?_zipWith, hp, hl]
  refine ⟨?_, fun i line hl hp => hline i line _ hl hp, fun i line hl hp => ?_,
    fun i line hl hp hheading => ?_⟩
  · rw [hlines, linkLines, List.length_zipWith, length_parts, Nat.min_self]
  · exact ⟨_, _, eq_of_isFence (isFence_of_closing hl hp), hline i line _ hl hp⟩
  · rw [hline i line _ hl hp, linkAs, autoLink_heading lk current line hheading]

/-- Automatic linking puts links around names in backquotes and changes nothing else: neither fenced code
nor headings. Linking once more changes nothing if no line is tangled. -/
theorem linkNames_wraps (hclean : lk.Clean) (current : Option String) (cs : List Char) :
    Wraps lk current cs (lk.linkNames current cs) ∧ KeepsLines cs (lk.linkNames current cs) ∧
      ((∀ prose ∈ prosesOf false (lines cs), ¬ Tangled lk current prose) →
        lk.linkNames current (lk.linkNames current cs) = lk.linkNames current cs) := by
  refine ⟨?_, keepsLines_linkNames hclean cs, fun h => ?_⟩
  · have hwraps : Wraps lk current _ _ := wraps_intercalate (wraps_linkLines hclean false (lines cs))
    rwa [intercalate_lines, ← linkNames_eq] at hwraps
  · rw [linkNames_eq lk current (lk.linkNames current cs), lines_linkNames hclean,
      linkLines_again hclean h, ← linkNames_eq]

theorem four_le_count_of_tangled {line : List Char} (h : Tangled lk current line) :
    4 ≤ line.count '\x60' := by
  obtain ⟨name, call, other, hin, -⟩ := h
  refine Nat.le_trans ?_ (hin.sublist.count_le '\x60')
  simp only [List.count_append, List.count_cons_self, List.count_nil]
  omega

/-- A site with a function and a variable. -/
def twoSymbols : Linker where
  symbols := [(some "g", ⟨some "g", .function, "api/functions.md", "func-g", .text "API"⟩),
    (some "x", ⟨some "x", .var, "api/variables.md", "var-x", .text "API"⟩)]
  directories := true
  cwd := "/site"

theorem clean_twoSymbols : twoSymbols.Clean := by
  have hsymbols : (twoSymbols.symbols.all fun entry =>
      (entry.2.page.toList ++ entry.2.anchor.toList).all fun c => c != '\x60' && c != '\n') = true := by
    decide +kernel
  have hcwd : (twoSymbols.cwd.toList.all fun c => c != '\x60' && c != '\n') = true := by
    decide +kernel
  exact ⟨fun entry hentry c hc => by
    simpa using List.all_eq_true.mp (List.all_eq_true.mp hsymbols entry hentry) c hc,
    fun c hc => by simpa using List.all_eq_true.mp hcwd c hc⟩

/-- A heading, fenced code and prose. -/
theorem linkNames_wraps_twoSymbols :
    let cs := "# `x`\n```\n`g()`\n```\nsee `x`\n".toList
    let linked := twoSymbols.linkNames none cs
    Wraps twoSymbols none cs linked ∧ KeepsLines cs linked ∧
      twoSymbols.linkNames none linked = linked := by
  intro cs linked
  have hcount : ((prosesOf false (lines cs)).all fun prose => prose.count '\x60' < 4) = true := by
    decide +kernel
  obtain ⟨hwraps, hkeeps, hagain⟩ := linkNames_wraps clean_twoSymbols none cs
  refine ⟨hwraps, hkeeps, hagain fun prose hprose htangled => ?_⟩
  have hle := four_le_count_of_tangled htangled
  have hlt := of_decide_eq_true (List.all_eq_true.mp hcount prose hprose)
  omega

/-- A call of an unknown function between a name and another call, which is linked the second time. -/
theorem not_linkNames_again :
    let cs := "`x`f()`g()`".toList
    let linked := "[`x`](api/variables.md#var-x)f()`g()`".toList
    twoSymbols.linkNames none cs = linked ∧
      twoSymbols.linkNames none linked =
        "[`x`](api/variables.md#var-x)f()[`g()`](api/functions.md#func-g)".toList := by
  decide +kernel

end HeaderDocs.Site.Linker
