import HeaderDocs.Proofs.Site.DirectiveOptions
import HeaderDocs.Proofs.Site.Fences
import HeaderDocs.Proofs.Site.Links
import HeaderDocs.Proofs.Site.Spans
import Mathlib.Data.List.Find

/-!
# The end of a page

A line end behind the last line of a page changes nothing but that it stands behind what is made of the
page as well: roles, fenced code, headings and names in backquotes are found as they are without it. The
exception are directives, whose lines are found only with their line ends: one that stands at the end of
a page without a line end loses its last line, or is not found at all.

* `Linker.linkPage_newline`: names and roles in a page with one more line end.
* `Directive.directiveAt?_concat`: a directive is found in the same way with one more line end, unless it
  reaches up to it.
* `Reference.page_newline`: a page with one more line end.
-/
namespace HeaderDocs

open HeaderDocs.Text

namespace Text

/-! ## One more character -/

theorem takeWhile_concat {p : Char → Bool} {d : Char} (hd : p d = false) (cs : List Char) :
    (cs ++ [d]).takeWhile p = cs.takeWhile p := Site.Linker.takeWhile_append_stop hd cs []

theorem drop_takeWhile_concat (p : Char → Bool) (cs : List Char) (d : Char) :
    (cs ++ [d]).drop (cs.takeWhile p).length = cs.drop (cs.takeWhile p).length ++ [d] :=
  List.drop_append_of_le_length (List.takeWhile_prefix p).length_le

/-- A pattern without the last character of a text is found in what stands before it. -/
theorem isPrefixOf?_concat {pattern : List Char} {d : Char} (hd : d ∉ pattern) (cs : List Char) :
    pattern.isPrefixOf? (cs ++ [d]) = (pattern.isPrefixOf? cs).map (· ++ [d]) := by
  induction pattern generalizing cs with
  | nil => rfl
  | cons p pattern ih =>
    rw [List.mem_cons, not_or] at hd
    cases cs with
    | nil =>
      have hp : (p == d) = false := beq_eq_false_iff_ne.mpr (Ne.symm hd.1)
      simp [List.isPrefixOf?, hp]
    | cons c cs =>
      rw [List.cons_append, List.isPrefixOf?, List.isPrefixOf?, ih hd.2]
      split <;> rfl

theorem isPrefixOf_concat {pattern : List Char} {d : Char} (hd : d ∉ pattern) (cs : List Char) :
    pattern.isPrefixOf (cs ++ [d]) = pattern.isPrefixOf cs := by
  rw [Bool.eq_iff_iff, List.isPrefixOf_iff_prefix, List.isPrefixOf_iff_prefix, List.prefix_concat_iff]
  constructor
  · intro h
    refine h.resolve_left fun he => hd ?_
    rw [he]
    simp
  · exact .inr

end Text

namespace Site.Linker

/-! ## Links -/

variable (lk : Linker) (current : Option String)

/-- An empty line at the end opens no code and closes none. -/
theorem linkLines_concat (inCode : Bool) (ls : List (List Char)) :
    lk.linkLines current inCode (ls ++ [[]]) = lk.linkLines current inCode ls ++ [[]] := by
  have hempty : isFence [] = false := rfl
  induction ls generalizing inCode with
  | nil =>
    cases inCode with
    | true => exact lk.linkLines_code current hempty []
    | false => exact lk.linkLines_prose current rfl
  | cons line ls ih =>
    rw [List.cons_append]
    cases inCode with
    | true =>
      cases hline : isFence line with
      | true =>
        rw [lk.linkLines_closing current hline, lk.linkLines_closing current hline, ih, List.cons_append]
      | false => rw [lk.linkLines_code current hline, lk.linkLines_code current hline, ih, List.cons_append]
    | false =>
      have hany : (ls ++ [[]]).any isFence = ls.any isFence := by simp [hempty]
      cases hopens : isFence line && ls.any isFence with
      | true =>
        rw [lk.linkLines_opening current (by rw [hany, hopens]), lk.linkLines_opening current hopens, ih,
          List.cons_append]
      | false =>
        rw [lk.linkLines_prose current (by rw [hany, hopens]), lk.linkLines_prose current hopens, ih,
          List.cons_append]

theorem linkNames_concat (cs : List Char) :
    lk.linkNames current (cs ++ ['\n']) = lk.linkNames current cs ++ ['\n'] := by
  rw [linkNames_eq, linkNames_eq, lines_concat, linkLines_concat,
    intercalate_concat (lk.linkLines_ne_nil current (lines_ne_nil cs))]

theorem findSome?_congr {α β : Type} {f g : α → Option β} {l : List α} (h : ∀ a ∈ l, f a = g a) :
    l.findSome? f = l.findSome? g := by
  induction l with
  | nil => rfl
  | cons a l ih =>
    rw [List.findSome?_cons, List.findSome?_cons, h a (List.mem_cons_self ..),
      ih fun b hb => h b (List.mem_cons_of_mem _ hb)]

theorem roleName?_concat (cs : List Char) : roleName? (cs ++ ['\n']) = roleName? cs := by
  refine findSome?_congr fun role hrole => ?_
  have hopening : '\n' ∉ (":" ++ role ++ ":\x60").toList := by
    revert role
    decide
  dsimp only
  rw [isPrefixOf?_concat hopening]
  cases (":" ++ role ++ ":\x60").toList.isPrefixOf? cs with
  | none => rfl
  | some rest =>
    by_cases hclosed : '\x60' ∈ rest
    · obtain ⟨name, behind, rfl, hname⟩ := List.eq_append_cons_of_mem hclosed
      have hchars : ∀ c ∈ name, (c != '\x60') = true := fun c hc =>
        bne_iff_ne.mpr fun he => hname (he ▸ hc)
      simp [takeWhile_append_cons hchars]
    · have hall : ∀ c ∈ rest, (c != '\x60') = true := fun c hc =>
        bne_iff_ne.mpr fun he => hclosed (he ▸ hc)
      have hrest : rest.takeWhile (· != '\x60') = rest := List.takeWhile_eq_self_iff.mpr hall
      have hline : (rest ++ ['\n']).takeWhile (· != '\x60') = rest ++ ['\n'] :=
        List.takeWhile_eq_self_iff.mpr
          (List.forall_mem_append.mpr ⟨hall, List.forall_mem_singleton.mpr rfl⟩)
      simp [hrest, hline]

theorem length_roleName? {cs name : List Char} {length : Nat} (h : roleName? cs = some (name, length)) :
    length ≤ cs.length := by
  obtain ⟨role, -, hrole⟩ := List.exists_of_findSome?_eq_some h
  dsimp only at hrole
  split at hrole
  · cases hrole
  · rename_i rest hrest
    split at hrole
    · cases hrole
    · rename_i hclosed
      rw [Option.some.injEq, Prod.mk.injEq] at hrole
      obtain ⟨rfl, rfl⟩ := hrole
      have hlength := congrArg List.length (List.isPrefixOf?_eq_some_iff_append_eq.mp hrest)
      rw [List.length_append] at hlength
      simp only [Bool.or_eq_true, not_or, List.isEmpty_iff, ← List.length_eq_zero_iff,
        List.length_drop] at hclosed
      omega

theorem substitute_roleRule_concat (cs : List Char) :
    substitute (lk.roleRule current) (cs ++ ['\n']) = substitute (lk.roleRule current) cs ++ ['\n'] := by
  refine substituteFrom_concat (fun _ => rfl) (Nat.zero_le _) fun done c rest _ => ⟨?_, ?_⟩
  · rw [roleRule, roleRule, roleName?_concat]
  · intro new length h
    obtain ⟨⟨name, n⟩, hname, he⟩ := Option.map_eq_some_iff.mp h
    obtain ⟨-, rfl⟩ := Prod.mk.inj he
    exact length_roleName? hname

/-- Names and roles in a page with one more line end. -/
theorem linkPage_newline (auto : Bool) (text : String) :
    lk.linkPage auto current (text ++ "\n") = lk.linkPage auto current text ++ "\n" := by
  rw [← String.toList_inj]
  have htext : (text ++ "\n").toList = text.toList ++ ['\n'] := by simp
  cases auto <;> simp [linkPage, htext, substitute_roleRule_concat, linkNames_concat]

end Site.Linker

namespace Site.Directive

/-! ## Directives -/

theorem optionLine?_text {indent : List Char} {l : OptionLine} (h : l.IsBelow indent)
    (rest : List Char) : optionLine? indent (l.text ++ rest) = some l.text.length := by
  obtain ⟨more, hblanks⟩ := h.isPrefix
  have hmore : more ≠ [] := fun he => h.ne (by rw [← hblanks, he, List.append_nil])
  have hisBlank : ∀ c ∈ more, isBlank c = true := fun c hc =>
    l.isBlank_blanks c (hblanks ▸ List.mem_append_right _ hc)
  have hcolon : ∀ cs : List Char, [':'].isPrefixOf? (':' :: cs) = some cs := fun cs =>
    List.isPrefixOf?_eq_some_iff_append_eq.mpr rfl
  have hindent : indent.isPrefixOf? (l.text ++ rest) =
      some (more ++ ':' :: (l.name ++ ':' :: (l.value ++ '\n' :: rest))) :=
    List.isPrefixOf?_eq_some_iff_append_eq.mpr (by rw [l.text_append, ← hblanks, List.append_assoc])
  rw [optionLine?, hindent]
  simp only [Option.bind_eq_bind, Option.bind_some,
    takeWhile_append_cons hisBlank (by decide : isBlank ':' = false), List.isEmpty_iff, hmore,
    if_false, List.drop_left, hcolon,
    takeWhile_append_cons l.isWordChar_name (by decide : isWordChar ':' = false), l.name_ne,
    breakOn?_singleton l.oneLine]
  have hlength := congrArg List.length hblanks
  rw [List.length_append] at hlength
  simp [OptionLine.text, OptionLine.setting, ← hlength]
  omega

/-- An option line is found in the same way with one more line end, unless it reaches up to it. -/
theorem optionLine?_concat {indent : List Char} (hindent : ∀ c ∈ indent, isBlank c = true)
    (cs : List Char) :
    optionLine? indent (cs ++ ['\n']) = optionLine? indent cs ∨
      optionLine? indent (cs ++ ['\n']) = some (cs.length + 1) := by
  cases hline : optionLine? indent (cs ++ ['\n']) with
  | none =>
    refine .inl (Option.eq_none_iff_forall_ne_some.mpr fun n hn => ?_).symm
    obtain ⟨l, rest, rfl, -, hbelow⟩ := optionLine?_eq_some hindent hn
    rw [List.append_assoc, optionLine?_text hbelow] at hline
    cases hline
  | some n =>
    obtain ⟨l, rest, htext, rfl, hbelow⟩ := optionLine?_eq_some hindent hline
    rcases List.eq_nil_or_concat' rest with rfl | ⟨init, last, rfl⟩
    · have hlength := congrArg List.length htext
      rw [List.length_append, List.append_nil, List.length_singleton] at hlength
      exact .inr (congrArg some hlength.symm)
    · rw [← List.append_assoc] at htext
      rw [(List.append_inj' htext rfl).1, optionLine?_text hbelow]
      exact .inl rfl

theorem bodyLength_linesText {indent : List Char} {lines : List OptionLine}
    (h : ∀ l ∈ lines, l.IsBelow indent) (rest : List Char) :
    bodyLength indent 0 (linesText lines ++ rest) =
      (linesText lines).length + bodyLength indent 0 rest := by
  induction lines with
  | nil => exact (Nat.zero_add _).symm
  | cons l lines ih =>
    have hline := optionLine?_text (h l (List.mem_cons_self ..)) (linesText lines ++ rest)
    have hrest := ih fun m hm => h m (List.mem_cons_of_mem _ hm)
    obtain ⟨c, cs, hcons⟩ := List.exists_cons_of_ne_nil l.text_ne_nil
    rw [linesText_cons, List.append_assoc]
    rw [hcons, List.cons_append] at hline ⊢
    rw [bodyLength, hline]
    dsimp only
    rw [List.length_cons, Nat.add_sub_cancel, bodyLength_skip, hrest]
    simp
    omega

/-- The lines below a directive are the same with one more line end, unless they reach up to it. -/
theorem bodyLength_concat {indent : List Char} (hindent : ∀ c ∈ indent, isBlank c = true)
    (cs : List Char) :
    bodyLength indent 0 (cs ++ ['\n']) = bodyLength indent 0 cs ∨
      bodyLength indent 0 (cs ++ ['\n']) = cs.length + 1 := by
  obtain ⟨lines, rest, rfl, hlength, hlines, hstop⟩ := bodyLength_spec hindent cs
  rw [List.append_assoc, bodyLength_linesText hlines, hlength]
  obtain ⟨c, cs, hcons⟩ : ∃ c cs, rest ++ ['\n'] = c :: cs :=
    List.exists_cons_of_ne_nil (List.append_ne_nil_of_right_ne_nil _ (List.cons_ne_nil _ _))
  rcases optionLine?_concat hindent rest with hline | hline
  · rw [hstop, hcons] at hline
    rw [hcons, bodyLength, hline]
    exact .inl rfl
  · have hcount := congrArg List.length hcons
    rw [List.length_append, List.length_singleton, List.length_cons] at hcount
    have hall := bodyLength_skip indent cs []
    rw [List.append_nil, bodyLength, Nat.add_zero] at hall
    rw [hcons] at hline
    have hrest : rest.length = cs.length := by omega
    rw [hcons, bodyLength, hline]
    dsimp only
    rw [Nat.add_sub_cancel, hrest, hall]
    simp
    omega

/-- What is read below the word of a directive: the white space up to the last line end in it, and the
lines with the options. -/
def readBelow (indent cs : List Char) : Option (List (String × String) × Nat) :=
  let space := dropEndWhile (· != '\n') (cs.takeWhile isSpace)
  if space.isEmpty then none
  else
    let rest := cs.drop space.length
    let length := bodyLength indent 0 rest
    some (optionsFrom true 0 (rest.take length), space.length + length)

theorem directiveAt?_eq (cs : List Char) : directiveAt? cs =
    let indent := cs.takeWhile isBlank
    (":::".toList.isPrefixOf? (cs.drop indent.length)).bind fun marked =>
      let blanks := marked.takeWhile isBlank
      if blanks.isEmpty then none
      else
        ("apitree:".toList.isPrefixOf? (marked.drop blanks.length)).bind fun named =>
          (kinds.find? fun (word, _) => word.toList.isPrefixOf named).bind fun (word, kind) =>
            (readBelow indent (named.drop word.length)).map fun (options, length) =>
              ({ word, kind, options },
                indent.length + 3 + blanks.length + 8 + word.length + length) := by
  have hdrop : ∀ cs : List Char, (cs.reverse.dropWhile (· != '\n')).reverse =
      dropEndWhile (· != '\n') cs := fun _ => rfl
  simp only [directiveAt?, readBelow, Option.bind_eq_bind, hdrop]
  refine congrArg (Option.bind _) (funext fun marked => ?_)
  refine congrArg (ite _ none) (congrArg (Option.bind _) (funext fun named => ?_))
  refine congrArg (Option.bind _) (funext fun found => ?_)
  split <;> simp [Nat.add_assoc]

theorem bodyLength_le {indent : List Char} (hindent : ∀ c ∈ indent, isBlank c = true)
    (cs : List Char) : bodyLength indent 0 cs ≤ cs.length := by
  obtain ⟨lines, rest, rfl, hlength, -, -⟩ := bodyLength_spec hindent cs
  rw [hlength, List.length_append]
  omega

/-- What is read below a directive is the same with one more line end, unless it reaches up to it. -/
theorem readBelow_concat {indent : List Char} (hindent : ∀ c ∈ indent, isBlank c = true)
    (cs : List Char) :
    readBelow indent (cs ++ ['\n']) = readBelow indent cs ∨
      ∃ options, readBelow indent (cs ++ ['\n']) = some (options, cs.length + 1) := by
  cases hbehind : cs.dropWhile isSpace with
  | nil =>
    -- nothing but white space: all of it goes with the line of the directive
    have hall : ∀ c ∈ cs ++ ['\n'], isSpace c = true :=
      List.forall_mem_append.mpr ⟨by simpa using hbehind, List.forall_mem_singleton.mpr rfl⟩
    refine .inr ⟨[], ?_⟩
    simp [readBelow, List.takeWhile_eq_self_iff.mpr hall, dropEndWhile_concat, bodyLength, optionsFrom]
  | cons c rest =>
    have hc : isSpace c = false := by
      have hhead := List.head_dropWhile_not isSpace (by rw [hbehind]; exact List.cons_ne_nil _ _)
      simpa [hbehind] using hhead
    have hspace : (cs ++ ['\n']).takeWhile isSpace = cs.takeWhile isSpace := by
      have hcs := List.takeWhile_append_dropWhile (p := isSpace) (l := cs)
      rw [hbehind] at hcs
      have hsplit : (cs.takeWhile isSpace ++ c :: (rest ++ ['\n'])).takeWhile isSpace =
          cs.takeWhile isSpace :=
        takeWhile_append_cons (fun _ => List.mem_takeWhile_imp) hc _
      rwa [← List.cons_append, ← List.append_assoc, hcs] at hsplit
    simp only [readBelow, hspace]
    generalize hstart : dropEndWhile (· != '\n') (cs.takeWhile isSpace) = space
    have hle : space.length ≤ cs.length := by
      rw [← hstart]
      exact ((dropEndWhile_isPrefix _ _).trans (List.takeWhile_prefix isSpace)).length_le
    split
    · exact .inl rfl
    · rw [List.drop_append_of_le_length hle]
      rcases bodyLength_concat hindent (cs.drop space.length) with hlength | hlength
      · rw [hlength, List.take_append_of_le_length (bodyLength_le hindent _)]
        exact .inl rfl
      · refine .inr ⟨_, congrArg some (Prod.ext rfl ?_)⟩
        dsimp only
        rw [hlength, List.length_drop]
        omega

/-- A directive is found in the same way with one more line end, unless it reaches up to it. -/
theorem directiveAt?_concat (cs : List Char) :
    directiveAt? (cs ++ ['\n']) = directiveAt? cs ∨
      ∃ d, directiveAt? (cs ++ ['\n']) = some (d, cs.length + 1) := by
  simp only [directiveAt?_eq, takeWhile_concat (by decide : isBlank '\n' = false),
    drop_takeWhile_concat, isPrefixOf?_concat (by decide : '\n' ∉ ":::".toList)]
  cases hmarked : ":::".toList.isPrefixOf? (cs.drop (cs.takeWhile isBlank).length) with
  | none => exact .inl rfl
  | some marked =>
    simp only [Option.map_some, Option.bind_some, takeWhile_concat (by decide : isBlank '\n' = false),
      drop_takeWhile_concat, isPrefixOf?_concat (by decide : '\n' ∉ "apitree:".toList)]
    split
    · exact .inl rfl
    cases hnamed : "apitree:".toList.isPrefixOf? (marked.drop (marked.takeWhile isBlank).length) with
    | none => exact .inl rfl
    | some named =>
      have hfind : (kinds.find? fun (word, _) => word.toList.isPrefixOf (named ++ ['\n'])) =
          kinds.find? fun (word, _) => word.toList.isPrefixOf named :=
        List.find?_congr fun (word, kind) hword => isPrefixOf_concat
          ((by decide : ∀ k ∈ kinds, '\n' ∉ k.1.toList) _ hword) named
      simp only [Option.map_some, Option.bind_some, hfind]
      cases hfound : kinds.find? fun (word, _) => word.toList.isPrefixOf named with
      | none => exact .inl rfl
      | some found =>
        obtain ⟨word, kind⟩ := found
        have hprefix := List.find?_some hfound
        dsimp only at hprefix
        obtain ⟨rest, rfl⟩ := List.isPrefixOf_iff_prefix.mp hprefix
        have hindent : ∀ c ∈ cs.takeWhile isBlank, isBlank c = true := fun _ => List.mem_takeWhile_imp
        have hword : ∀ rest : List Char, (word.toList ++ rest).drop word.length = rest := fun rest => by
          rw [← String.length_toList, List.drop_left]
        simp only [Option.bind_some, List.append_assoc, hword]
        rcases readBelow_concat hindent rest with hread | ⟨options, hread⟩
        · exact .inl (by rw [hread])
        · refine .inr ⟨{ word, kind, options }, ?_⟩
          rw [hread, Option.map_some, Option.some.injEq, Prod.mk.injEq]
          have hcs := congrArg List.length
            (eq_of_drop_takeWhile (List.isPrefixOf?_eq_some_iff_append_eq.mp hmarked))
          have hbelow := congrArg List.length
            (eq_of_drop_takeWhile (List.isPrefixOf?_eq_some_iff_append_eq.mp hnamed))
          simp only [List.length_append, String.length_toList] at hcs hbelow
          have hcolons : ":::".length = 3 := rfl
          have hname : "apitree:".length = 8 := rfl
          exact ⟨rfl, by omega⟩

theorem length_directiveAt? {cs : List Char} {d : Directive} {n : Nat}
    (h : directiveAt? cs = some (d, n)) : n ≤ cs.length := by
  obtain ⟨indent, heading, lines, rest, -, -, rfl, rfl, -⟩ := options_directiveAt? h
  exact (List.prefix_append ..).length_le

/-- Whether a text ends in a directive once a line end stands behind it: from the start of a line on, a
directive covers all the rest. -/
def endsInDirective : (lineStart : Bool) → List Char → Bool
  | _, [] => false
  | lineStart, c :: cs =>
    lineStart && (directiveAt? (c :: cs ++ ['\n'])).any (fun (_, n) => n == cs.length + 2) ||
      endsInDirective (c == '\n') cs

variable {cs done rest : List Char} {c : Char}

/-- Where no directive reaches the end, each is found in the same way with one more line end. -/
theorem directiveAt?_newline (before : Option Char) (h : endsInDirective (before.all (· == '\n')) cs = false)
    (he : cs = done ++ c :: rest) (hstart : (lastOr before done).all (· == '\n') = true) :
    directiveAt? (c :: rest ++ ['\n']) = directiveAt? (c :: rest) := by
  induction done generalizing cs before with
  | nil =>
    subst he
    rw [lastOr_nil] at hstart
    rw [List.nil_append, endsInDirective, hstart, Bool.true_and, Bool.or_eq_false_iff] at h
    refine (directiveAt?_concat (c :: rest)).resolve_right ?_
    rintro ⟨d, hd⟩
    rw [hd] at h
    simp at h
  | cons e done ih =>
    subst he
    rw [List.cons_append, endsInDirective, Bool.or_eq_false_iff] at h
    rw [lastOr_cons] at hstart
    exact ih (some e) h.2 rfl hstart

/-- The directives of a text with one more line end are replaced as in the text. -/
theorem replaceAll_newline (text : Directive → List Char) (h : endsInDirective true cs = false) :
    replaceAll text (cs ++ ['\n']) = replaceAll text cs ++ ['\n'] := by
  refine substituteFrom_concat (fun before => ?_) (Nat.zero_le _) fun done c rest he => ⟨?_, ?_⟩
  · cases before <;> simp [show directiveAt? ['\n'] = none from rfl]
  · split
    · rename_i hstart
      rw [directiveAt?_newline none h he hstart]
    · rfl
  · intro new length hmatch
    split at hmatch
    · obtain ⟨⟨d, n⟩, hd, hnew⟩ := Option.map_eq_some_iff.mp hmatch
      obtain ⟨-, rfl⟩ := Prod.mk.inj hnew
      exact length_directiveAt? hd
    · cases hmatch

end Site.Directive

namespace Site.Reference

open Directive

theorem directivesFrom_newline {cs : List Char} (before : Option Char) {skip : Nat}
    (hskip : skip ≤ cs.length) (h : endsInDirective (before.all (· == '\n')) cs = false) :
    directivesFrom (before.all (· == '\n')) skip (cs ++ ['\n']) =
      directivesFrom (before.all (· == '\n')) skip cs := by
  induction cs generalizing before skip with
  | nil =>
    obtain rfl : skip = 0 := by simpa using hskip
    cases before.all (· == '\n') <;> rfl
  | cons c cs ih =>
    have hrest : endsInDirective ((some c).all (· == '\n')) cs = false := by
      rw [endsInDirective, Bool.or_eq_false_iff] at h
      exact h.2
    rw [List.length_cons] at hskip
    cases skip with
    | succ skip => exact ih (some c) (by omega) hrest
    | zero =>
      rw [List.cons_append, directivesFrom, directivesFrom]
      have hfound : (if before.all (· == '\n') = true then directiveAt? (c :: (cs ++ ['\n'])) else none) =
          if before.all (· == '\n') = true then directiveAt? (c :: cs) else none := by
        split
        · rename_i hstart
          exact directiveAt?_newline before h (List.nil_append _).symm hstart
        · rfl
      rw [hfound]
      split
      · rename_i d length hd
        obtain ⟨-, hd⟩ := Option.ite_none_right_eq_some.mp hd
        have hlength := length_directiveAt? hd
        rw [List.length_cons] at hlength
        exact congrArg (d :: ·) (ih (some c) (by omega) hrest)
      · exact ih (some c) (Nat.zero_le _) hrest

variable {ref : Reference} {path : Option String}

/-- A page with one more line end is made as without it, with a line end behind it, unless it ends in a
directive. -/
theorem page_newline (hpage : ref.pages.find? (some ·.1 == path) = none) (store : Store)
    (source : Option String) {markdown : String}
    (hend : endsInDirective true markdown.toList = false) :
    ref.page store path source (markdown ++ "\n") =
      ((ref.page store path source markdown).1 ++ "\n", (ref.page store path source markdown).2) := by
  have htext : (markdown ++ "\n").toList = markdown.toList ++ ['\n'] := by simp
  have hdirectives := directivesFrom_newline none (Nat.zero_le _) hend
  have hpageText : ref.pageText path source (markdown ++ "\n") =
      ((ref.pageText path source markdown).1 ++ "\n", (ref.pageText path source markdown).2) := by
    simp only [pageText, hpage, htext, replaceAll_newline _ hend]
    refine Prod.ext ?_ ?_
    · simp
    · exact congrArg (List.flatMap fun d => (ref.directiveText source d).2) hdirectives
  rw [page, page, hpageText]
  exact Prod.ext (Linker.linkPage_newline ..) rfl

/-- A directive, and a call in backquotes on the last line. -/
theorem page_newline_prose :
    let ref := siteOf ["a/src"]
    let markdown := "::: apitree:autofunction\n    :name: f\n\nSee \x60f()\x60."
    ref.pages.find? (some ·.1 == some "guide.md") = none ∧
      endsInDirective true markdown.toList = false ∧
      ref.page sameName (some "guide.md") (some "guide.md") (markdown ++ "\n") =
        ((ref.page sameName (some "guide.md") (some "guide.md") markdown).1 ++ "\n",
          (ref.page sameName (some "guide.md") (some "guide.md") markdown).2) := by
  intro ref markdown
  have hpage : ref.pages.find? (some ·.1 == some "guide.md") = none := by decide +kernel
  have hend : endsInDirective true markdown.toList = false := by decide +kernel
  clear_value ref markdown
  exact ⟨hpage, hend, page_newline hpage sameName (some "guide.md") hend⟩

/-- A directive on the last two lines: without a line end the option is not read, and the page says
that there is no name. -/
theorem not_page_newline_option :
    let ref := siteOf ["a/src"]
    let markdown := "::: apitree:autofunction\n    :name: f"
    let shown (markdown : String) :=
      dropEndWhile (· == '\n') (ref.page sameName (some "guide.md") (some "guide.md") markdown).1.toList
    ref.pages.find? (some ·.1 == some "guide.md") = none ∧
      shown markdown =
        "<!-- apitree: missing :name: for apitree:autofunction -->\n    :name: f".toList ∧
      shown (markdown ++ "\n") =
        ("<a id=\"func-f\"></a>\n\n## Function: \x60f\x60\n\n" ++
          "\x60\x60\x60c\nint f(void);\n\x60\x60\x60").toList := by
  decide +kernel

end Site.Reference

end HeaderDocs
