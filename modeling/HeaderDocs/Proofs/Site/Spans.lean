import HeaderDocs.Proofs.Text.Substitute
import HeaderDocs.Site.Link

/-!
# Names in backquotes

The names of a line that can become links stand between two backquotes. A line is cut at its
backquotes; a rule then picks some of its pieces, from left to right and never two neighbours, since
both would need the backquote between them. What it picks becomes a link if there is such a symbol.
Brackets and addresses are put next to backquotes only, so that the pieces stay what they are.

* `finds_calls`, `finds_names`: the two rules.
* `SpanKind.after_after`: a rule finds nothing more in what it has written.
* `SpanKind.Finds.substitute_text`: what a rule does to a line, as marks on its pieces.
* `Cut.exists_text`, `Cut.infix_text`: every line can be cut, and the pieces stand in it.
-/
namespace HeaderDocs.Site.Linker

open HeaderDocs.Text

/-! ## Rules for names in backquotes -/

/-- A kind of text in backquotes, and the addresses of what can be linked. -/
structure SpanKind where
  isSpan : List Char → Bool
  address? : List Char → Option String

def linkText (label : List Char) (address : String) : List Char :=
  '[' :: '\x60' :: label ++ '\x60' :: ']' :: '(' :: address.toList ++ [')']

/-- What is written for a text in backquotes. -/
def SpanKind.written (k : SpanKind) (span : List Char) : List Char :=
  match k.address? span with
  | some address => linkText span address
  | none => '\x60' :: span ++ ['\x60']

/-- A rule that finds the texts in backquotes of a kind, unless there is a square bracket before or
behind the backquotes. -/
structure SpanKind.Finds (k : SpanKind) (rule : Rule) : Prop where
  closed : ∀ (before : Option Char) (span rest : List Char), '\x60' ∉ span →
    rule before ('\x60' :: span ++ '\x60' :: rest) =
      if k.isSpan span = true ∧ before ≠ some '[' ∧ rest.head? ≠ some ']' then
        some (k.written span, span.length + 2)
      else none
  unclosed : ∀ (before : Option Char) (span : List Char), '\x60' ∉ span →
    rule before ('\x60' :: span) = none
  elsewhere : ∀ (before : Option Char) (c : Char) (cs : List Char), c ≠ '\x60' →
    rule before (c :: cs) = none

def calls (lk : Linker) (current : Option String) : SpanKind where
  isSpan span :=
    let name := span.takeWhile fun c => isWordChar c || c == ':' || c == '~'
    !name.isEmpty && span.drop name.length == ['(', ')']
  address? span := lk.resolve (String.ofList (span.take (span.length - 2))) current

def names (lk : Linker) (current : Option String) : SpanKind where
  isSpan span := span.head?.any isWordChar && span.all fun c => isWordChar c || c == ':'
  address? span := lk.resolve (String.ofList span) current

theorem takeWhile_append_stop {p : Char → Bool} {d : Char} (hd : p d = false)
    (cs rest : List Char) : (cs ++ d :: rest).takeWhile p = cs.takeWhile p := by
  induction cs with
  | nil => exact List.takeWhile_cons_of_neg (by rw [hd]; decide)
  | cons c cs ih =>
    rw [List.cons_append, List.takeWhile_cons, List.takeWhile_cons, ih]

theorem isPrefixOf?_closed {ending cs : List Char} {q : Char} (hending : q ∉ ending) (hcs : q ∉ cs)
    (rest : List Char) :
    (ending ++ [q]).isPrefixOf? (cs ++ q :: rest) = if cs = ending then some rest else none := by
  split
  · rename_i he
    exact List.isPrefixOf?_eq_some_iff_append_eq.mpr (by rw [he, List.append_assoc]; rfl)
  · rename_i hne
    refine Option.eq_none_iff_forall_ne_some.mpr fun rest' h => hne ?_
    rw [List.isPrefixOf?_eq_some_iff_append_eq, List.append_assoc] at h
    have hpass : ∀ cs : List Char, q ∉ cs → ∀ c ∈ cs, (c != q) = true := fun cs h c hc =>
      bne_iff_ne.mpr fun he => h (he ▸ hc)
    have htake := congrArg (List.takeWhile (· != q)) h
    rwa [List.singleton_append, takeWhile_append_cons (hpass _ hending) (bne_self_eq_false q),
      takeWhile_append_cons (hpass _ hcs) (bne_self_eq_false q), eq_comm] at htake

variable {allowed : Char → Bool} {before : Option Char} {span : List Char}

theorem backquoted?_closed {ending : String} (hallowed : allowed '\x60' = false)
    (hending : '\x60' ∉ ending.toList) (hspan : '\x60' ∉ span) (rest : List Char) :
    backquoted? before allowed ending ('\x60' :: span ++ '\x60' :: rest) =
      if (span.takeWhile allowed ≠ [] ∧
          span.drop (span.takeWhile allowed).length = ending.toList) ∧
        before ≠ some '[' ∧ rest.head? ≠ some ']' then
        some (span.takeWhile allowed, (span.takeWhile allowed).length + ending.length + 2)
      else none := by
  have hdrop : '\x60' ∉ span.drop (span.takeWhile allowed).length := fun h =>
    hspan (List.mem_of_mem_drop h)
  have hle : (span.takeWhile allowed).length ≤ span.length :=
    (List.takeWhile_prefix allowed).length_le
  rw [List.cons_append, backquoted?, takeWhile_append_stop hallowed]
  dsimp only
  rw [List.drop_append_of_le_length hle, String.toList_append, show "\x60".toList = ['\x60'] from rfl, isPrefixOf?_closed hending hdrop]
  by_cases hbefore : before = some '['
  · simp [hbefore]
  by_cases hend : span.drop (span.takeWhile allowed).length = ending.toList
  · by_cases hname : span.takeWhile allowed = []
    · rw [if_pos hend]
      simp [hbefore, hname]
    · by_cases hrest : rest.head? = some ']'
      · simp [hbefore, hend, hname, hrest]
      · simp [hbefore, hend, hname, hrest]
  · simp [hbefore, hend]

/-- Without a backquote that closes it there is nothing to find. -/
theorem backquoted?_unclosed (ending : String) (hspan : '\x60' ∉ span) :
    backquoted? before allowed ending ('\x60' :: span) = none := by
  have hnone : (ending ++ "\x60").toList.isPrefixOf?
      (span.drop (span.takeWhile allowed).length) = none := by
    refine Option.eq_none_iff_forall_ne_some.mpr fun rest h => hspan ?_
    rw [List.isPrefixOf?_eq_some_iff_append_eq] at h
    refine List.mem_of_mem_drop (i := (span.takeWhile allowed).length) ?_
    rw [← h]
    simp
  rw [backquoted?]
  dsimp only
  rw [hnone, ite_self]

theorem backquoted?_elsewhere (ending : String) {c : Char} (hc : c ≠ '\x60') (cs : List Char) :
    backquoted? before allowed ending (c :: cs) = none := by
  rw [backquoted?, if_pos]
  rw [bne_iff_ne.mpr hc, Bool.true_or]

variable (lk : Linker) (current : Option String)

theorem toList_link (name label : String) (span : List Char) :
    (lk.link name label current (String.ofList span)).toList =
      match lk.resolve name current with
      | some address => linkText label.toList address
      | none => span := by
  rw [link]
  cases lk.resolve name current <;> simp [linkText]

theorem take_span (span rest : List Char) :
    ('\x60' :: span ++ '\x60' :: rest).take (span.length + 2) = '\x60' :: span ++ ['\x60'] := by
  have hsplit : '\x60' :: span ++ '\x60' :: rest = '\x60' :: span ++ ['\x60'] ++ rest := by simp
  rw [hsplit, List.take_left' (by simp)]

theorem exists_of_isCall {span : List Char} (h : (calls lk current).isSpan span = true) :
    ∃ name, span = name ++ ['(', ')'] ∧
      span.takeWhile (fun c => isWordChar c || c == ':' || c == '~') = name := by
  have hdrop : span.drop (span.takeWhile _).length = ['(', ')'] :=
    eq_of_beq (Bool.and_eq_true_iff.mp h).2
  exact ⟨_, by rw [← hdrop, List.prefix_iff_eq_append.mp (List.takeWhile_prefix _)], rfl⟩

theorem finds_calls : (calls lk current).Finds (lk.callRule current) where
  closed before span rest hspan := by
    rw [callRule, backquoted?_closed (by decide) (by decide) hspan]
    by_cases h : (calls lk current).isSpan span = true ∧ before ≠ some '[' ∧ rest.head? ≠ some ']'
    · obtain ⟨name, hname, htake⟩ := exists_of_isCall lk current h.1
      have hlength : name.length + "()".length + 2 = span.length + 2 := by
        rw [hname, List.length_append]
        rfl
      rw [if_pos h, if_pos ⟨by simpa [calls] using h.1, h.2⟩, Option.map_some, htake]
      dsimp only
      rw [hlength, toList_link, take_span, SpanKind.written]
      simp [calls, hname]
    · rw [if_neg h, if_neg fun hn => h ⟨by simpa [calls] using hn.1, hn.2⟩, Option.map_none]
  unclosed before span hspan := by rw [callRule, backquoted?_unclosed _ hspan, Option.map_none]
  elsewhere before c cs hc := by rw [callRule, backquoted?_elsewhere _ hc, Option.map_none]

theorem finds_names : (names lk current).Finds (lk.nameRule current) where
  closed before span rest hspan := by
    rw [nameRule, backquoted?_closed (by decide) (by decide) hspan]
    by_cases hends : before ≠ some '[' ∧ rest.head? ≠ some ']'
    · by_cases hall : (span.all fun c => isWordChar c || c == ':') = true
      · rw [List.takeWhile_eq_self_iff.mpr (List.all_eq_true.mp hall), List.drop_length]
        cases hhead : span.head?.any isWordChar with
        | true =>
          have hne : span ≠ [] := by
            rintro rfl
            cases hhead
          rw [if_pos ⟨⟨hne, rfl⟩, hends⟩, if_pos ⟨by simp [names, hhead, hall], hends⟩]
          dsimp only
          rw [if_pos hhead, show span.length + "".length + 2 = span.length + 2 from rfl, toList_link,
            take_span, SpanKind.written]
          simp [names]
        | false =>
          rw [if_neg (c := (names lk current).isSpan span = true ∧ _) fun h => by
            simp [names, hhead] at h]
          by_cases hne : span = []
          · rw [if_neg fun h => h.1.1 hne]
          · rw [if_pos ⟨⟨hne, rfl⟩, hends⟩]
            dsimp only
            rw [if_neg (by rw [hhead]; decide)]
      · have hdrop : span.drop (span.takeWhile fun c => isWordChar c || c == ':').length ≠ [] := by
          intro hnil
          have heq := List.prefix_iff_eq_append.mp
            (List.takeWhile_prefix (l := span) fun c => isWordChar c || c == ':')
          rw [hnil, List.append_nil] at heq
          exact hall (List.all_eq_true.mpr (List.takeWhile_eq_self_iff.mp heq))
        rw [if_neg fun h => hdrop h.1.2, if_neg fun h => by simp [names, hall] at h]
    · rw [if_neg fun h => hends h.2, if_neg fun h => hends h.2]
  unclosed before span hspan := by rw [nameRule, backquoted?_unclosed _ hspan]
  elsewhere before c cs hc := by rw [nameRule, backquoted?_elsewhere _ hc]

theorem noBracket_of_isCall {span : List Char} (h : (calls lk current).isSpan span = true) :
    '[' ∉ span ∧ ']' ∉ span := by
  obtain ⟨name, rfl, htake⟩ := exists_of_isCall lk current h
  have hname : ∀ c ∈ name, (isWordChar c || c == ':' || c == '~') = true := by
    intro c hc
    rw [← htake] at hc
    exact List.mem_takeWhile_imp (p := fun c => isWordChar c || c == ':' || c == '~') hc
  constructor <;>
  · rw [List.mem_append]
    exact fun hc => hc.elim (fun hc => absurd (hname _ hc) (by decide)) (by decide)

theorem noBracket_of_isName {span : List Char} (h : (names lk current).isSpan span = true) :
    '[' ∉ span ∧ ']' ∉ span := by
  have hall := List.all_eq_true.mp (Bool.and_eq_true_iff.mp h).2
  exact ⟨fun hc => absurd (hall _ hc) (by decide), fun hc => absurd (hall _ hc) (by decide)⟩

/-! ## Marks -/

/-- A line cut at its backquotes, from its first piece to the one with the number `last`. -/
structure Cut where
  piece : Nat → List Char
  last : Nat
  noTick : ∀ i, '\x60' ∉ piece i

/-- Which pieces are links, and the addresses. -/
abbrev Marks := Nat → Option String

/-- A line without links. -/
def unmarked : Marks := fun _ => none

/-- What opens a link, before the backquote of the piece. -/
def openText : Option String → List Char
  | some _ => ['[']
  | none => []

/-- What closes a link, behind the backquote of the next piece. -/
def closeText : Option String → List Char
  | some address => ']' :: '(' :: address.toList ++ [')']
  | none => []

namespace Cut

variable (k : Cut) (marks : Marks)

/-- What stands between two backquotes. There is nothing to close before the first piece. -/
def body (i : Nat) : List Char :=
  closeText (marks (i - 1)) ++ k.piece i ++ openText (marks (i + 1))

/-- The text of `n` pieces with the backquotes before them. -/
def textFrom : (n i : Nat) → List Char
  | 0, _ => []
  | n + 1, i => '\x60' :: k.body marks i ++ textFrom n (i + 1)

def text : List Char := k.body marks 0 ++ k.textFrom marks k.last 1

end Cut

/-- Links are pieces between backquotes, and never two that share one. -/
structure Cut.IsMarking (k : Cut) (marks : Marks) : Prop where
  inside : ∀ i, marks i ≠ none → 0 < i ∧ i < k.last
  apart : ∀ i, marks i ≠ none → marks (i + 1) = none
  noTick : ∀ i address, marks i = some address → '\x60' ∉ address.toList

/-! ## One pass of a rule -/

namespace SpanKind

variable (kind : SpanKind) (k : Cut) (marks : Marks)

/-- Whether a rule can pick a piece: it is no part of a link yet, and stands between backquotes without
square brackets around them. -/
structure Fits (i : Nat) : Prop where
  inside : 0 < i ∧ i < k.last
  isSpan : kind.isSpan (k.piece i) = true
  before : (k.piece (i - 1)).getLast? ≠ some '['
  behind : (k.piece (i + 1)).head? ≠ some ']'
  free : marks i = none
  freeBefore : marks (i - 1) = none
  freeBehind : marks (i + 1) = none

instance (i : Nat) : Decidable (kind.Fits k marks i) :=
  decidable_of_iff ((0 < i ∧ i < k.last) ∧ kind.isSpan (k.piece i) = true ∧
      (k.piece (i - 1)).getLast? ≠ some '[' ∧ (k.piece (i + 1)).head? ≠ some ']' ∧
      marks i = none ∧ marks (i - 1) = none ∧ marks (i + 1) = none)
    ⟨fun ⟨inside, isSpan, before, behind, free, freeBefore, freeBehind⟩ =>
      ⟨inside, isSpan, before, behind, free, freeBefore, freeBehind⟩,
      fun h => ⟨h.inside, h.isSpan, h.before, h.behind, h.free, h.freeBefore, h.freeBehind⟩⟩

/-- Whether a rule picks a piece: the one before it must leave it the backquote between them. -/
def picked : Nat → Bool
  | 0 => false
  | i + 1 => decide (kind.Fits k marks (i + 1)) && !picked i

/-- The links after a rule was applied. -/
def after : Marks := fun i => if kind.picked k marks i then kind.address? (k.piece i) else marks i

variable {kind k marks}

theorem fits_of_picked {i : Nat} (h : kind.picked k marks i = true) : kind.Fits k marks i := by
  cases i with
  | zero => cases h
  | succ i =>
    rw [picked, Bool.and_eq_true_iff] at h
    exact of_decide_eq_true h.1

theorem not_picked_succ {i : Nat} (h : kind.picked k marks i = true) :
    kind.picked k marks (i + 1) = false := by
  rw [picked, h, Bool.not_true, Bool.and_false]

theorem not_picked_of_marked {i : Nat} (h : marks i ≠ none) : kind.picked k marks i = false :=
  Bool.eq_false_iff.mpr fun hp => h (fits_of_picked hp).free

theorem after_of_picked {i : Nat} (h : kind.picked k marks i = true) :
    kind.after k marks i = kind.address? (k.piece i) := if_pos h

theorem after_of_not_picked {i : Nat} (h : kind.picked k marks i = false) :
    kind.after k marks i = marks i := if_neg (by rw [h]; decide)

theorem after_of_marked {i : Nat} (h : marks i ≠ none) : kind.after k marks i = marks i :=
  after_of_not_picked (not_picked_of_marked h)

theorem isMarking_after (haddress : ∀ span address, kind.address? span = some address →
    '\x60' ∉ address.toList) (h : k.IsMarking marks) : k.IsMarking (kind.after k marks) where
  inside i hi := by
    cases hp : kind.picked k marks i with
    | true => exact (fits_of_picked hp).inside
    | false => exact h.inside i (by rwa [after_of_not_picked hp] at hi)
  apart i hi := by
    cases hp : kind.picked k marks i with
    | true =>
      rw [after_of_not_picked (not_picked_succ hp)]
      exact (fits_of_picked hp).freeBehind
    | false =>
      rw [after_of_not_picked hp] at hi
      cases hnext : kind.picked k marks (i + 1) with
      | true => exact absurd (fits_of_picked hnext).freeBefore hi
      | false => rw [after_of_not_picked hnext, h.apart i hi]
  noTick i address hi := by
    cases hp : kind.picked k marks i with
    | true => exact haddress _ _ (by rwa [after_of_picked hp] at hi)
    | false => exact h.noTick i address (by rwa [after_of_not_picked hp] at hi)

/-- Where there are more links than before, a rule picks what it has picked before, as long as no new
link takes a backquote from what it has picked. -/
theorem picked_eq {more : Marks} (hmore : ∀ i, more i = none → marks i = none)
    (hleft : ∀ i, kind.Fits k more (i + 1) → kind.picked k marks i = true → more (i - 1) = none)
    {i : Nat} (h : kind.Fits k more i) : kind.picked k more i = kind.picked k marks i := by
  have hfits : ∀ i, kind.Fits k more i → kind.Fits k marks i := fun i h =>
    { h with
      free := hmore _ h.free
      freeBefore := hmore _ h.freeBefore
      freeBehind := hmore _ h.freeBehind }
  induction i with
  | zero => rfl
  | succ i ih =>
    rw [picked, picked, decide_eq_true h, decide_eq_true (hfits _ h), Bool.true_and, Bool.true_and]
    by_cases hi : kind.Fits k more i
    · rw [ih hi]
    · have hnot : kind.picked k more i = false := Bool.eq_false_iff.mpr fun hp => hi (fits_of_picked hp)
      have hnotBefore : kind.picked k marks i = false := Bool.eq_false_iff.mpr fun hp =>
        hi { fits_of_picked hp with
          free := h.freeBefore
          freeBefore := hleft i h hp
          freeBehind := h.free }
      rw [hnot, hnotBefore]

/-- A rule changes nothing if all that it picks was picked before. -/
theorem after_eq_self {more : Marks}
    (h : ∀ i, kind.picked k more i = true → kind.address? (k.piece i) = none) :
    kind.after k more = more := by
  funext i
  cases hp : kind.picked k more i with
  | false => exact after_of_not_picked hp
  | true => rw [after_of_picked hp, h i hp, (fits_of_picked hp).free]

/-- A rule finds nothing more in what it has written: what it left out stands beside something that it
has picked and that is no link, and it picks that again. -/
theorem after_after : kind.after k (kind.after k marks) = kind.after k marks := by
  have hmore : ∀ i, kind.after k marks i = none → marks i = none := fun i hi =>
    Decidable.byContradiction fun hm => hm (by rwa [after_of_marked hm] at hi)
  have hleft : ∀ i, kind.Fits k (kind.after k marks) (i + 1) → kind.picked k marks i = true →
      kind.after k marks (i - 1) = none := by
    intro i _ hp
    have hprev := (fits_of_picked hp).freeBefore
    obtain ⟨i, rfl⟩ :=
      Nat.exists_eq_add_one_of_ne_zero (Nat.ne_of_gt (fits_of_picked hp).inside.1)
    rw [picked, Bool.and_eq_true_iff, Bool.not_eq_true'] at hp
    rw [Nat.add_sub_cancel] at hprev ⊢
    rw [after_of_not_picked hp.2, hprev]
  refine after_eq_self fun i hp => ?_
  have hfit := fits_of_picked hp
  rw [picked_eq hmore hleft hfit] at hp
  rw [← after_of_picked hp]
  exact hfit.free

end SpanKind

/-! ## What a rule does to a line -/

namespace Cut

variable {k : Cut} {marks : Marks}

theorem noTick_body (h : k.IsMarking marks) (i : Nat) : '\x60' ∉ k.body marks i := by
  rw [body, List.mem_append, List.mem_append]
  rintro ((hc | hc) | hc)
  · cases hprev : marks (i - 1) with
    | some address => exact h.noTick _ _ hprev (by simpa [closeText, hprev] using hc)
    | none => simp [closeText, hprev] at hc
  · exact k.noTick i hc
  · cases hnext : marks (i + 1) <;> simp [openText, hnext] at hc

theorem body_of_unmarked {i : Nat} (hprev : marks (i - 1) = none) (hnext : marks (i + 1) = none) :
    k.body marks i = k.piece i := by
  rw [body, hprev, hnext, closeText, openText, List.nil_append, List.append_nil]

/-- The text before a backquote ends in a square bracket only if it opens a link or did so before. -/
theorem lastOr_body {before : Option Char} (hbefore : before ≠ some '[') (i : Nat) :
    lastOr before (k.body marks i) = some '[' ↔
      marks (i + 1) ≠ none ∨ (k.piece i).getLast? = some '[' := by
  cases hnext : marks (i + 1) with
  | some address =>
    rw [body, hnext, openText, lastOr_concat]
    exact iff_of_true rfl (.inl nofun)
  | none =>
    rw [body, hnext, openText, List.append_nil, lastOr_append]
    rcases List.eq_nil_or_concat' (k.piece i) with hpiece | ⟨init, c, hpiece⟩
    · rw [hpiece, lastOr_nil]
      refine iff_of_false ?_ (by simp)
      cases marks (i - 1) with
      | some address =>
        rw [closeText, lastOr_concat]
        decide
      | none => exact hbefore
    · rw [hpiece, lastOr_concat]
      simp

theorem head?_body {i : Nat} (hprev : marks (i - 1) = none) :
    (k.body marks i).head? = some ']' ↔ (k.piece i).head? = some ']' := by
  rw [body, hprev, closeText, List.nil_append]
  cases k.piece i with
  | nil => cases marks (i + 1) <;> simp [openText]
  | cons c cs => rfl

end Cut

namespace SpanKind

variable {kind : SpanKind} {k : Cut} {marks : Marks}

/-- The square bracket of a new link before the backquote of a piece. -/
def opening (kind : SpanKind) (k : Cut) (marks : Marks) (i : Nat) : List Char :=
  match marks i with
  | some _ => []
  | none => openText (kind.after k marks i)

theorem openText_after (i : Nat) :
    openText (kind.after k marks i) = openText (marks i) ++ kind.opening k marks i := by
  rw [opening]
  cases hi : marks i with
  | some address => rw [after_of_marked (by rw [hi]; nofun), hi, List.append_nil]
  | none => rfl

/-- What is between two backquotes is closed where a new link ends, and opened before the next one. -/
theorem body_after {i : Nat} (h : kind.after k marks (i - 1) = marks (i - 1)) :
    k.body (kind.after k marks) i = k.body marks i ++ kind.opening k marks (i + 1) := by
  simp only [Cut.body, h, openText_after, List.append_assoc]

theorem body_after_link {i : Nat} (h : marks (i - 1) = none) :
    k.body (kind.after k marks) i =
      closeText (kind.after k marks (i - 1)) ++ k.body marks i ++ kind.opening k marks (i + 1) := by
  rw [Cut.body, Cut.body, h, openText_after, closeText, List.nil_append, List.append_assoc,
    List.append_assoc, List.append_assoc]

theorem written_eq (span : List Char) :
    kind.written span = openText (kind.address? span) ++
      ('\x60' :: span ++ '\x60' :: closeText (kind.address? span)) := by
  rw [written]
  cases kind.address? span <;> simp [openText, closeText, linkText]

theorem opening_of_not_picked {i : Nat} (h : kind.picked k marks i = false) :
    kind.opening k marks i = [] := by
  rw [opening, after_of_not_picked h]
  cases marks i <;> rfl

variable {rule : Rule} {before : Option Char}

theorem picked_of_fits {i : Nat} (hfree : kind.picked k marks (i - 1) = false)
    (h : kind.Fits k marks i) : kind.picked k marks i = true := by
  obtain ⟨i, rfl⟩ := Nat.exists_eq_add_one_of_ne_zero (Nat.ne_of_gt h.inside.1)
  rw [Nat.add_sub_cancel] at hfree
  rw [picked, hfree, decide_eq_true h]
  rfl

theorem Finds.pass (hrule : kind.Finds rule) (h : k.IsMarking marks) (i : Nat) (rest : List Char) :
    substituteFrom rule before 0 (k.body marks i ++ rest) =
      k.body marks i ++ substituteFrom rule (lastOr before (k.body marks i)) 0 rest :=
  substituteFrom_pass (p := (· ≠ '\x60')) hrule.elsewhere
    (fun _ hc he => Cut.noTick_body h i (he ▸ hc)) before rest

/-- A rule matches at a piece exactly if it can pick it. -/
theorem fits_iff (hbrackets : ∀ span, kind.isSpan span = true → '[' ∉ span ∧ ']' ∉ span)
    {i : Nat} (hin : 0 < i ∧ i < k.last) (rest : List Char) (hrest : rest.head? ≠ some ']')
    (hbefore : before = some '[' ↔ marks i ≠ none ∨ (k.piece (i - 1)).getLast? = some '[') :
    (kind.isSpan (k.body marks i) = true ∧ before ≠ some '[' ∧
      (k.body marks (i + 1) ++ rest).head? ≠ some ']') ↔ kind.Fits k marks i := by
  have hhead : marks i = none → ((k.body marks (i + 1) ++ rest).head? = some ']' ↔
      (k.piece (i + 1)).head? = some ']') := by
    intro hi
    rw [← Cut.head?_body (show marks (i + 1 - 1) = none from hi)]
    cases k.body marks (i + 1) with
    | nil => simpa using hrest
    | cons c cs => rfl
  rw [ne_eq, hbefore, not_or, not_not]
  constructor
  · rintro ⟨hspan, ⟨hi, hlast⟩, hfirst⟩
    have hprev : marks (i - 1) = none := Option.eq_none_iff_forall_ne_some.mpr fun address he =>
      (hbrackets _ hspan).2 (by simp [Cut.body, he, closeText])
    have hnext : marks (i + 1) = none := Option.eq_none_iff_forall_ne_some.mpr fun address he =>
      (hbrackets _ hspan).1 (by simp [Cut.body, he, openText])
    rw [Cut.body_of_unmarked hprev hnext] at hspan
    exact ⟨hin, hspan, hlast, mt (hhead hi).mpr hfirst, hi, hprev, hnext⟩
  · intro h
    rw [Cut.body_of_unmarked h.freeBefore h.freeBehind]
    exact ⟨h.isSpan, ⟨h.free, h.before⟩, mt (hhead h.free).mp h.behind⟩

theorem head?_textFrom (n i : Nat) : (k.textFrom marks n i).head? ≠ some ']' := by
  cases n <;> simp [Cut.textFrom]

section

variable (hrule : kind.Finds rule)
  (hbrackets : ∀ span, kind.isSpan span = true → '[' ∉ span ∧ ']' ∉ span) (h : k.IsMarking marks)
  {n i : Nat} (hn : i + n = k.last)
  (hbefore : before = some '[' ↔ marks i ≠ none ∨ (k.piece (i - 1)).getLast? = some '[')

include hrule hbrackets h hn hbefore

/-- A piece that a rule picks is written, and the one after it is passed over. -/
theorem Finds.step_picked (hfit : kind.Fits k marks i) :
    ∃ m, n = m + 1 ∧ substituteFrom rule before 0 (k.textFrom marks (n + 1) i) =
      kind.written (k.piece i) ++ (k.body marks (i + 1) ++
        substituteFrom rule (lastOr (some '\x60') (k.body marks (i + 1))) 0
          (k.textFrom marks m (i + 2))) := by
  have hin := hfit.inside
  obtain ⟨m, rfl⟩ : ∃ m, n = m + 1 := ⟨n - 1, by omega⟩
  have hbody := Cut.body_of_unmarked (k := k) hfit.freeBefore hfit.freeBehind
  have hmatch := hrule.closed before (k.body marks i)
    (k.body marks (i + 1) ++ k.textFrom marks m (i + 2)) (Cut.noTick_body h i)
  rw [if_pos ((fits_iff hbrackets hin _ (head?_textFrom m _) hbefore).mpr hfit)] at hmatch
  have htext : k.textFrom marks (m + 1 + 1) i = '\x60' :: (k.body marks i ++ ['\x60']) ++
      (k.body marks (i + 1) ++ k.textFrom marks m (i + 2)) := by
    simp [Cut.textFrom]
  have hcovered : '\x60' :: k.body marks i ++ '\x60' :: (k.body marks (i + 1) ++
      k.textFrom marks m (i + 2)) = '\x60' :: (k.body marks i ++ ['\x60']) ++
      (k.body marks (i + 1) ++ k.textFrom marks m (i + 2)) := by
    simp
  have hlength : (k.body marks i).length + 2 = (k.body marks i ++ ['\x60']).length + 1 := by simp
  rw [hcovered, hlength] at hmatch
  refine ⟨m, rfl, ?_⟩
  rw [htext, substituteFrom_match hmatch, lastOr_concat, hrule.pass h, hbody]

theorem Finds.step_passed (hfit : ¬ kind.Fits k marks i) (hpos : 0 < i) :
    substituteFrom rule before 0 (k.textFrom marks (n + 1) i) =
      '\x60' :: k.body marks i ++
        substituteFrom rule (lastOr (some '\x60') (k.body marks i)) 0
          (k.textFrom marks n (i + 1)) := by
  have hnone : rule before ('\x60' :: (k.body marks i ++ k.textFrom marks n (i + 1))) = none := by
    cases n with
    | zero =>
      rw [Cut.textFrom, List.append_nil]
      exact hrule.unclosed _ _ (Cut.noTick_body h i)
    | succ n =>
      rw [Cut.textFrom, List.cons_append, ← List.cons_append,
        hrule.closed _ _ _ (Cut.noTick_body h i), if_neg fun hmatch => hfit ?_]
      exact (fits_iff hbrackets ⟨hpos, by omega⟩ _ (head?_textFrom n _) hbefore).mp hmatch
  rw [Cut.textFrom, List.cons_append, substituteFrom, hnone]
  dsimp only
  rw [hrule.pass h, List.cons_append]

end

/-- A rule from one backquote on: the pieces that it picks are marked. -/
theorem Finds.substituteFrom_textFrom (hrule : kind.Finds rule)
    (hbrackets : ∀ span, kind.isSpan span = true → '[' ∉ span ∧ ']' ∉ span)
    (h : k.IsMarking marks) {n i : Nat} (hn : i + n = k.last + 1) (hpos : 0 < i)
    (hbefore : before = some '[' ↔ marks i ≠ none ∨ (k.piece (i - 1)).getLast? = some '[')
    (hfree : kind.picked k marks (i - 1) = false) :
    substituteFrom rule before 0 (k.textFrom marks n i) =
      kind.opening k marks i ++ k.textFrom (kind.after k marks) n i := by
  induction n using Nat.strongRecOn generalizing i before with
  | ind n ih =>
    cases n with
    | zero =>
      have hnot : kind.picked k marks i = false := Bool.eq_false_iff.mpr fun hp => by
        have hlt := (fits_of_picked hp).inside.2
        omega
      rw [opening_of_not_picked hnot]
      rfl
    | succ n =>
      have hbody := body_after (after_of_not_picked hfree)
      cases hp : kind.picked k marks i with
      | false =>
        have hfit : ¬ kind.Fits k marks i := fun hfit => by
          rw [picked_of_fits hfree hfit] at hp
          cases hp
        rw [hrule.step_passed hbrackets h (by omega) hbefore hfit hpos,
          ih n (Nat.lt_succ_self n) (by omega) (Nat.succ_pos i)
            (Cut.lastOr_body (by decide) i) hp,
          opening_of_not_picked hp, Cut.textFrom, hbody]
        simp
      | true =>
        have hfit := fits_of_picked hp
        have hi : marks i = none := hfit.free
        obtain ⟨m, rfl, hstep⟩ := hrule.step_picked hbrackets h (n := n) (by omega) hbefore hfit
        have hnext := not_picked_succ hp
        have hopening : kind.opening k marks i = openText (kind.after k marks i) := by rw [opening, hi]
        rw [hstep, ih m (by omega) (i := i + 2) (by omega) (by omega)
            (Cut.lastOr_body (by decide) (i + 1)) hnext,
          written_eq, ← after_of_picked hp, hopening, Cut.textFrom, Cut.textFrom, hbody,
          opening_of_not_picked hnext, List.append_nil, body_after_link (i := i + 1) hi,
          Cut.body_of_unmarked hfit.freeBefore hfit.freeBehind]
        simp

/-- What a rule does to a line: the pieces that it picks are marked. -/
theorem Finds.substitute_text (hrule : kind.Finds rule)
    (hbrackets : ∀ span, kind.isSpan span = true → '[' ∉ span ∧ ']' ∉ span)
    (h : k.IsMarking marks) :
    substitute rule (k.text marks) = k.text (kind.after k marks) := by
  have hfirst : kind.picked k marks 0 = false := rfl
  have hrest := hrule.substituteFrom_textFrom hbrackets h (n := k.last) (i := 1) (Nat.add_comm _ _)
    Nat.one_pos (Cut.lastOr_body (nofun : (none : Option Char) ≠ some '[') 0) hfirst
  rw [substitute, Cut.text, hrule.pass h, hrest, Cut.text,
    body_after (i := 0) (after_of_not_picked hfirst), List.append_assoc]

end SpanKind

/-! ## Lines without links -/

namespace Cut

theorem isMarking_unmarked (k : Cut) : k.IsMarking unmarked where
  inside _ h := absurd rfl h
  apart _ _ := rfl
  noTick _ _ h := nomatch h

theorem body_unmarked (k : Cut) (i : Nat) : k.body unmarked i = k.piece i := body_of_unmarked rfl rfl

theorem textFrom_congr {k l : Cut} {i j : Nat} (h : ∀ d, k.piece (i + d) = l.piece (j + d))
    (n : Nat) : k.textFrom unmarked n i = l.textFrom unmarked n j := by
  induction n generalizing i j with
  | zero => rfl
  | succ n ih =>
    have hnext := ih (i := i + 1) (j := j + 1) fun d => by
      rw [Nat.add_right_comm i, Nat.add_right_comm j]
      exact h (d + 1)
    have hfirst : k.piece i = l.piece j := h 0
    rw [textFrom, textFrom, body_unmarked, body_unmarked, hnext, hfirst]

/-- Every line can be cut at its backquotes. -/
theorem exists_text (line : List Char) : ∃ k : Cut, k.text unmarked = line := by
  induction line with
  | nil => exact ⟨⟨fun _ => [], 0, fun _ => List.not_mem_nil⟩, rfl⟩
  | cons c cs ih =>
    obtain ⟨k, rfl⟩ := ih
    by_cases hc : c = '\x60'
    · refine ⟨⟨fun | 0 => [] | i + 1 => k.piece i, k.last + 1, fun i => ?_⟩, ?_⟩
      · cases i with
        | zero => exact List.not_mem_nil
        | succ i => exact k.noTick i
      · rw [text, text, body_unmarked, body_unmarked, textFrom, body_unmarked,
          textFrom_congr (l := k) (j := 1) fun d => by rw [Nat.add_assoc, Nat.add_comm 1], hc]
        rfl
    · refine ⟨⟨fun | 0 => c :: k.piece 0 | i + 1 => k.piece (i + 1), k.last, fun i => ?_⟩, ?_⟩
      · cases i with
        | zero =>
          rw [List.mem_cons, not_or]
          exact ⟨Ne.symm hc, k.noTick 0⟩
        | succ i => exact k.noTick (i + 1)
      · rw [text, text, body_unmarked, body_unmarked,
          textFrom_congr (l := k) (j := 1) fun d => by rw [Nat.add_comm 1]]
        rfl

theorem textFrom_suffix (k : Cut) {i n : Nat} (hpos : 0 < i) (hn : i + n = k.last + 1) :
    k.textFrom unmarked n i <:+ k.text unmarked := by
  induction i generalizing n with
  | zero => cases hpos
  | succ i ih =>
    by_cases hi : i = 0
    · obtain rfl : n = k.last := by omega
      rw [hi]
      exact List.suffix_append ..
    · refine List.IsSuffix.trans ?_ (ih (n := n + 1) (Nat.pos_of_ne_zero hi) (by omega))
      exact (List.suffix_append ..).trans (List.suffix_cons ..)

/-- Neighbours between backquotes stand in the line as they are. -/
theorem infix_text (k : Cut) {i : Nat} (hpos : 0 < i) (hlast : i + 2 < k.last) :
    '\x60' :: k.piece i ++ '\x60' :: k.piece (i + 1) ++ '\x60' :: k.piece (i + 2) ++ ['\x60'] <:+:
      k.text unmarked := by
  obtain ⟨n, hn⟩ : ∃ n, i + (n + 1 + 1 + 1 + 1) = k.last + 1 := ⟨k.last - i - 3, by omega⟩
  refine List.IsInfix.trans ?_ (k.textFrom_suffix hpos hn).isInfix
  simp only [textFrom, body_unmarked]
  exact ⟨[], k.piece (i + 1 + 1 + 1) ++ k.textFrom unmarked n (i + 1 + 1 + 1 + 1), by simp⟩

end Cut

end HeaderDocs.Site.Linker
