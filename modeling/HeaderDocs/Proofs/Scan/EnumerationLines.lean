import HeaderDocs.Proofs.Scan.ConstantLines
import HeaderDocs.Proofs.Scan.DeclaratorEnds

/-!
# Reading enumerations line by line

The enumeration whose body is being read is a child of the scope, or kept aside until it is named.
Constants are recorded in it either way, and comments described or withdraw them.

* `State.run_lines`: reading the lines of a body.
-/
namespace HeaderDocs.Scan

open HeaderDocs.Text

/-! ## The enumeration in its place -/

namespace Place

/-- The place of a node that has been changed. -/
def fill (home : Node) : Place → Place
  | inScope e => inScope e
  | aside _ => aside home

/-- The scope when the node at the place has been changed. -/
def fillIn (home scope : Node) : Place → Node
  | inScope e => scope.modifyAt (fun _ => home) [e]
  | aside _ => scope

variable {p : Place} {home scope : Node}

theorem node?_fill (h : p.node? scope = some home) (home' : Node) :
    (p.fill home').node? (p.fillIn home' scope) = some home' := by
  cases p with
  | aside node => rfl
  | inScope e =>
    have hchild : scope.children[e]? = some home := h
    simp [fill, fillIn, node?, Node.modifyAt, List.getElem?_modify_eq, hchild]

theorem fill_fill (p : Place) (first second : Node) : (p.fill first).fill second = p.fill second := by
  cases p <;> rfl

theorem fillIn_fill (p : Place) (first second scope : Node) :
    (p.fill first).fillIn second (p.fillIn first scope) = p.fillIn second scope := by
  cases p with
  | aside node => rfl
  | inScope e =>
    change (scope.modifyAt _ [e]).modifyAt _ [e] = scope.modifyAt _ [e]
    rw [Node.modifyAt_modifyAt]

theorem fill_self (h : p.node? scope = some home) : p.fill home = p := by
  cases p with
  | aside node => exact congrArg aside (Option.some.inj h).symm
  | inScope e => rfl

/-- Changing the child at the place is putting the changed one there. -/
theorem modifyAt_eq_fillIn {e : Nat} (h : (inScope e).node? scope = some home) (f : Node → Node) :
    scope.modifyAt f [e] = (inScope e).fillIn (f home) scope := by
  refine Node.modifyAt_congr fun m hm => ?_
  have hchild : scope.children[e]? = some home := h
  simp only [Node.get?, hchild] at hm
  exact congrArg f (Option.some.inj hm).symm

theorem fillIn_self (h : p.node? scope = some home) : p.fillIn home scope = scope := by
  cases p with
  | aside node => rfl
  | inScope e => exact (modifyAt_eq_fillIn h id).symm.trans (Node.modifyAt_self scope [e])

end Place

/-! ## Contexts -/

/-- The context of a declaration in whose body constants are listed. -/
structure Context.ListsConstants (c : Context) : Prop where
  braces : c.braces = 1
  parens : c.parens = 0
  header : c.header = none
  record : c.record = none
  inValue : c.inValue = false

/-- The context in the body of an enumeration, with the comment that waits for a constant. -/
def Context.body (c : Context) (p : Place) (left : Option String) (joinable : Bool)
    (claim : Option (List Claim)) : Context :=
  { c with enumeration := some p, comment := left, joinable, claim }

variable {s : OpenScope} {c : Context} {p : Place} {home : Node} {about : String}
  {left : Option String}

/-- Recording something below a place leaves the context as it is. -/
theorem Context.body_afterInsert (hc : c.ListsConstants) (e i : Nat) :
    (c.body p none false none).afterInsert [e, i] = c.body p none false none := by
  simp [Context.afterInsert, Context.body, hc.header, hc.record,
    Place.afterInsert_below e (List.cons_ne_nil i [])]

theorem Context.body_afterRemove (hc : c.ListsConstants) {claim : Option (List Claim)}
    (hclaim : claim = none ∨ claim = some []) (e i : Nat) (removed : Node) :
    (c.body p none false claim).afterRemove [e, i] removed = c.body p none false claim := by
  rcases hclaim with rfl | rfl <;>
    simp [Context.afterRemove, Context.body, hc.header, hc.record,
      Place.afterRemove_below e (List.cons_ne_nil i [])]

namespace OpenScope

/-! ## Constants -/

theorem declareConstant_taken (hc : c.ListsConstants) (hp : p.node? s.node = some home)
    (joinable : Bool) {word : String}
    (hpublic : ((constantNode word).describeIf left).isPrivate = false) {ins : Node.Insertion}
    (hins : home.insertion? ((constantNode word).describeIf left) = some ins) :
    let home' := home.withChildren (ins.apply home.children)
    ∃ s' : OpenScope, s'.node = p.fillIn home' s.node ∧
      ({ s with context := c.body p left joinable none } : OpenScope).declareConstant word =
        { s' with
          context := c.body (p.fill home') none false (some [.constant ins.position]) } := by
  intro home'
  let node := (constantNode word).describeIf left
  let v : OpenScope := { s with context := c.body p left joinable none }
  let t : OpenScope := { s with context := c.body p none false none }
  cases p with
  | aside old =>
    obtain rfl : old = home := Option.some.inj hp
    have haside : t.commitAside old node =
        (t.note (.recorded node.kind (node.name.getD "")), some ins.position, home') := by
      unfold OpenScope.commitAside
      rw [if_neg (by simp [node, hpublic]), hins]
    exact ⟨t.note (.recorded node.kind (node.name.getD "")), rfl,
      (declareConstant_commitAside (s := v) word rfl haside).trans rfl⟩
  | inScope e =>
    have hcontext : (t.commitTo [e] node).1.context = c.body (.inScope e) none false none := by
      refine OpenScope.commitTo_context (s := t) (P := (· = c.body (.inScope e) none false none)) rfl
        ?_ ?_ node
      · rintro i _ rfl
        exact Context.body_afterInsert hc e i
      · rintro i removed _ rfl
        exact Context.body_afterRemove hc (.inl rfl) e i removed
    have hget : s.node.get? [e] = some home := by
      have hchild : s.node.children[e]? = some home := hp
      simp [Node.get?, hchild]
    have hnode : (t.commitTo [e] node).1.node = (Place.inScope e).fillIn home' s.node := by
      rw [node_commitTo, Place.modifyAt_eq_fillIn hp, record_of_insertion? hpublic hins]
    have hpath : (t.commitTo [e] node).2 = some [e, ins.position] := by
      unfold OpenScope.commitTo
      dsimp only
      rw [if_neg (by simp [node, hpublic]), show t.node.get? [e] = some home from hget,
        show (some home).bind (·.insertion? node) = some ins from hins]
      rfl
    have hcommit : t.commitTo [e] node = ((t.commitTo [e] node).1, some [e, ins.position]) := by
      rw [← hpath]
    refine ⟨(t.commitTo [e] node).1, hnode,
      (declareConstant_commitTo (s := v) word rfl hcommit).trans ?_⟩
    rw [Option.elim_some, OpenScope.update, hcontext]
    rfl

/-- A constant that is not recorded uses the waiting comment up. -/
theorem declareConstant_refused (hp : p.node? s.node = some home) (joinable : Bool) {word : String}
    (hrefused : ((constantNode word).describeIf left).isPrivate = true ∨
      home.insertion? ((constantNode word).describeIf left) = none) :
    ∃ s' : OpenScope, s'.node = s.node ∧
      ({ s with context := c.body p left joinable none } : OpenScope).declareConstant word =
        { s' with context := c.body p none false none } := by
  let node := (constantNode word).describeIf left
  let v : OpenScope := { s with context := c.body p left joinable none }
  let t : OpenScope := { s with context := c.body p none false none }
  cases p with
  | aside old =>
    obtain rfl : old = home := Option.some.inj hp
    have haside : ∃ u : OpenScope, u.node = s.node ∧ u.context = t.context ∧
        t.commitAside old node = (u, none, old) := by
      unfold OpenScope.commitAside
      split
      · exact ⟨t.note (.skippedPrivate node.kind (node.name.getD "")), rfl, rfl, rfl⟩
      · rename_i hpublic
        rw [hrefused.resolve_left hpublic]
        exact ⟨t, rfl, rfl, rfl⟩
    obtain ⟨u, hnode, hcontext, haside⟩ := haside
    refine ⟨u, hnode, (declareConstant_commitAside (s := v) word rfl haside).trans ?_⟩
    rw [show c.body (.aside old) none false none = u.context from hcontext.symm]
    rfl
  | inScope e =>
    have hget : t.node.get? [e] = some home := by
      have hchild : s.node.children[e]? = some home := hp
      simp [t, Node.get?, hchild]
    have hcommit : ∃ u : OpenScope, u.node = s.node ∧ u.context = t.context ∧
        t.commitTo [e] node = (u, none) := by
      unfold OpenScope.commitTo
      dsimp only
      split
      · exact ⟨t.note (.skippedPrivate node.kind (node.name.getD "")), rfl, rfl, rfl⟩
      · rename_i hpublic
        rw [hget, Option.bind_some, hrefused.resolve_left hpublic]
        exact ⟨t, rfl, rfl, rfl⟩
    obtain ⟨u, hnode, hcontext, hcommit⟩ := hcommit
    refine ⟨u, hnode, (declareConstant_commitTo (s := v) word rfl hcommit).trans ?_⟩
    rw [show c.body (.inScope e) none false none = u.context from hcontext.symm]
    rfl

/-! ## Comments -/

theorem takeComment_recorded (hc : c.ListsConstants) (hp : p.node? s.node = some home) (i : Nat)
    {raw : String} (hraw : raw ≠ "") (line : Bool) :
    ∃ s' : OpenScope, s'.node = p.fillIn (settle (some raw) i home) s.node ∧
      ({ s with context := c.body p none false (some [.constant i]) } : OpenScope).takeComment raw line =
        { s' with context := c.body (p.fill (settle (some raw) i home)) none false none } := by
  have hempty : raw.isEmpty = false := by simpa using hraw
  have htake : ({ s with context := c.body p none false (some [.constant i]) } :
        OpenScope).takeComment raw line =
      ({ s with context := c.body p none false (some [.constant i]) } :
        OpenScope).settleClaims raw [.constant i] := by
    unfold OpenScope.takeComment
    rw [if_neg (by simp [hempty])]
    rfl
  rw [htake]
  unfold settleClaims settle
  dsimp only
  split
  · cases p with
    | aside old =>
      obtain rfl : old = home := Option.some.inj hp
      exact ⟨s, rfl, rfl⟩
    | inScope e =>
      let t : OpenScope := { s with context := c.body (.inScope e) none false (some []) }
      have hnode : (t.removeAt [e, i]).node =
          (Place.inScope e).fillIn (home.removeAt [i]) s.node :=
        (node_removeAt t [e, i]).trans (Place.modifyAt_eq_fillIn hp (·.removeAt [i]))
      have hcontext : (t.removeAt [e, i]).context = t.context := by
        unfold removeAt
        split
        · exact Context.body_afterRemove hc (.inr rfl) e i _
        · rfl
      refine ⟨t.removeAt [e, i], hnode, ?_⟩
      change ({ t.removeAt [e, i] with
        context := { (t.removeAt [e, i]).context with claim := none, joinable := false } } :
          OpenScope) = _
      rw [hcontext]
      rfl
  · cases p with
    | aside old =>
      obtain rfl : old = home := Option.some.inj hp
      exact ⟨s, rfl, rfl⟩
    | inScope e =>
      exact ⟨s.modifyAt (·.describe raw) [e, i],
        Place.modifyAt_eq_fillIn hp (·.modifyAt (·.describe raw) [i]), rfl⟩

theorem takeComment_waits (hc : c.ListsConstants) {raw : String} (hraw : raw ≠ "") (line : Bool) :
    ({ s with context := c.body p none false none } : OpenScope).takeComment raw line =
      { s with context := c.body p (some raw) line none } := by
  have hempty : raw.isEmpty = false := by simpa using hraw
  unfold OpenScope.takeComment
  simp [hempty, Context.body, hc.braces, Context.inEnumeration, OpenScope.update]

theorem endLine_recorded (hc : c.ListsConstants) (hp : p.node? s.node = some home) (i : Nat)
    {raw? : Option String} (hraw : ∀ raw ∈ raw?, raw ≠ "") (line joinable : Bool) :
    ∃ s' : OpenScope, s'.node = p.fillIn (settle raw? i home) s.node ∧
      (({ s with context := c.body p none false (some [.constant i]) } : OpenScope).takeComment
          (raw?.getD "") line).update ({ · with claim := none, joinable }) =
        { s' with context := c.body (p.fill (settle raw? i home)) none joinable none } := by
  cases raw? with
  | none =>
    refine ⟨s, (Place.fillIn_self hp).symm, ?_⟩
    rw [show p.fill (settle none i home) = p from Place.fill_self hp]
    rfl
  | some raw =>
    obtain ⟨s', hnode, htake⟩ := takeComment_recorded hc hp i (hraw raw rfl) line
    refine ⟨s', hnode, ?_⟩
    rw [Option.getD_some, htake]
    rfl

theorem endLine_refused (hc : c.ListsConstants) {raw? : Option String}
    (hraw : ∀ raw ∈ raw?, raw ≠ "") (line joinable : Bool) :
    (({ s with context := c.body p none false none } : OpenScope).takeComment (raw?.getD "")
        line).update ({ · with claim := none, joinable }) =
      { s with context := c.body p raw? joinable none } := by
  cases raw? with
  | none => rfl
  | some raw =>
    rw [Option.getD_some, takeComment_waits hc (hraw raw rfl) line]
    rfl

end OpenScope

/-! ## Lines -/

/-- A comment that says nothing is read as none is. -/
theorem ConstantLine.getD_raw? (l : ConstantLine) :
    l.raw?.getD "" = (l.comment.map (·.text)).getD "" := by
  unfold ConstantLine.raw?
  cases l.comment.map (·.text) with
  | none => rfl
  | some text => by_cases h : text = "" <;> simp [Option.filter, h]

namespace State

variable {t : State}

/-- White space within a line changes nothing. -/
theorem run_blank (hmode : t.mode = .plain) {blank : List Char} (hblank : IsBlank blank)
    (rest : List Char) : t.run (blank ++ rest) = t.run rest := by
  induction blank with
  | nil => rfl
  | cons d blank ih =>
    obtain ⟨hgap, hline⟩ := hblank
    obtain ⟨hspace, hrest⟩ := isGap_cons.mp hgap
    simp only [List.mem_cons, not_or] at hline
    change (t.step d).run (blank ++ rest) = _
    rw [step_space hmode hspace (Ne.symm hline.1), ih ⟨hrest, hline.2⟩]

/-- White space where no declaration has ended may end what a comment could continue. -/
theorem run_gap_joinable (hclaim : c.claim = none) (joinable : Bool) {gap : List Char}
    (hgap : IsGap gap) (rest : List Char) :
    ∃ joinable', (t.inContext { c with joinable }).run (gap ++ rest) =
      (t.inContext { c with joinable := joinable' }).run rest := by
  induction gap generalizing joinable with
  | nil => exact ⟨joinable, rfl⟩
  | cons d gap ih =>
    obtain ⟨hspace, hrest⟩ := isGap_cons.mp hgap
    obtain ⟨joinable', hstep⟩ : ∃ joinable', (t.inContext { c with joinable }).step d =
        t.inContext { c with joinable := joinable' } := by
      by_cases hd : d = '\n'
      · subst hd
        refine ⟨false, (run_newline (t := t.inContext { c with joinable }) rfl).trans ?_⟩
        rw [← hclaim]
        rfl
      · exact ⟨joinable, step_space rfl hspace hd⟩
    obtain ⟨joinable'', hread⟩ := ih joinable' hrest
    refine ⟨joinable'', ?_⟩
    change ((t.inContext _).step d).run (gap ++ rest) = _
    rw [hstep, hread]

theorem run_gap_body (left : Option String) (joinable : Bool) {gap : List Char} (hgap : IsGap gap)
    (rest : List Char) :
    ∃ joinable', (t.inContext (c.body p left joinable none)).run (gap ++ rest) =
      (t.inContext (c.body p left joinable' none)).run rest :=
  run_gap_joinable (c := c.body p left false none) rfl joinable hgap rest

/-- A name is read the same whether or not a comment could have been continued before it. -/
theorem run_name_joinable (joinable : Bool) (w : Name) (rest : List Char) :
    (t.inContext { c with joinable }).run (w.text.toList ++ rest) =
      (t.inContext { c with joinable := false }).run (w.text.toList ++ rest) := by
  obtain ⟨hne, hchars⟩ := w.chars
  obtain ⟨first, cs, htext⟩ := List.exists_cons_of_ne_nil hne
  have hfirst : isWordChar first = true := hchars first (by simp [htext])
  have hspace : isSpace first = false := not_isSpace_of_isWordChar hfirst
  have hslash : first ≠ '/' := by
    rintro rfl
    exact absurd hfirst (by decide +kernel)
  have hstep : (t.inContext { c with joinable }).step first =
      (t.inContext { c with joinable := false }).step first := by
    rw [step_code rfl hspace hslash, step_code rfl hspace hslash]
    rfl
  rw [htext]
  exact congrArg (State.run · (cs ++ rest)) hstep

theorem run_constantName (hc : c.ListsConstants) (joinable : Bool) (w : Name) {d : Char}
    (hd : isWordPart c.parens d = false) (rest : List Char) :
    (t.inContext (c.body p left joinable none)).run (w.text.toList ++ d :: rest) =
      ((t.inContext (c.body p left false none)).update (·.declareConstant w.text)).run
        (d :: rest) := by
  have hword : ({ t.scope with context := c.body p left false none } : OpenScope).word w.text d =
      ({ t.scope with context := c.body p left false none } : OpenScope).declareConstant w.text := by
    have hdigit := w.not_isDigit_head
    unfold OpenScope.word
    simp [Context.body, hc.braces, hc.inValue, hdigit]
  have hend := run_word_inContext (t := t) (c := c.body p left false none) rfl w.toWord hd rest
  refine (run_name_joinable (c := c.body p left false none) joinable w _).trans (hend.trans ?_)
  exact congrArg (fun scope => State.run { t with mode := .plain, scope } (d :: rest)) hword

/-- What stands behind the comma of a line, if the line goes on. -/
theorem run_ends_inLine (hmode : t.mode = .plain) {l : ConstantLine} {cs : List Char}
    (hcs : l.Ends cs) (hline : ∀ c, l.comment ≠ some (.line c)) :
    t.run cs = t.update (·.takeComment (l.raw?.getD "") false) := by
  rw [l.getD_raw?]
  unfold ConstantLine.Ends at hcs
  split at hcs
  · rename_i hnone
    have hread := run_blank hmode hcs []
    rw [List.append_nil] at hread
    rw [hread, hnone]
    rfl
  · rename_i comment hblock
    obtain ⟨before, after, hbefore, hafter, rfl⟩ := hcs
    have htaken := (mode_update (·.takeComment comment.text false) t).trans hmode
    have hread := run_blank htaken hafter []
    rw [List.append_nil] at hread
    rw [run_blank hmode hbefore, run_append, run_comment hmode, hread, hblock]
    rfl
  · rename_i comment hcomment
    exact absurd hcomment (hline comment)

theorem run_ends (hmode : t.mode = .plain) {l : ConstantLine} {cs : List Char} (hcs : l.Ends cs) :
    ∃ line joinable, t.run (cs ++ ['\n']) =
      (t.update (·.takeComment (l.raw?.getD "") line)).update
        (·.update ({ · with claim := none, joinable })) := by
  rw [l.getD_raw?]
  unfold ConstantLine.Ends at hcs
  split at hcs
  · rename_i hnone
    refine ⟨false, false, ?_⟩
    rw [run_blank hmode hcs, run_newline hmode, hnone]
    rfl
  · rename_i comment hblock
    obtain ⟨before, after, hbefore, hafter, rfl⟩ := hcs
    have htaken := (mode_update (·.takeComment comment.text false) t).trans hmode
    refine ⟨false, false, ?_⟩
    rw [List.append_assoc, run_blank hmode hbefore, List.append_assoc, run_append,
      run_comment hmode, run_blank htaken hafter, run_newline htaken, hblock]
    rfl
  · rename_i comment hline
    obtain ⟨before, hbefore, rfl⟩ := hcs
    let s' := t.scope.takeComment comment.text true
    refine ⟨true, s'.context.joinable, ?_⟩
    rw [List.append_assoc, run_blank hmode hbefore, run_lineRemark hmode, hline]
    rfl

theorem run_lineStart (hc : c.ListsConstants) (left : Option String) (joinable : Bool)
    {l : ConstantLine} {cs : List Char} (hcs : l.Spelled cs) : ∃ rest, l.Ends rest ∧
      (t.inContext (c.body p left joinable none)).run cs =
        ((t.inContext (c.body p left false none)).update (·.declareConstant l.name.text)).run
          (',' :: (rest ++ ['\n'])) := by
  obtain ⟨before, between, rest, hbefore, hbetween, hends, rfl⟩ := hcs
  obtain ⟨joinable', hgap⟩ := run_gap_body (t := t) (c := c) (p := p) left joinable hbefore
    (l.name.text.toList ++ (between ++ ',' :: (rest ++ ['\n'])))
  have hsplit : ∃ d after, between ++ ',' :: (rest ++ ['\n']) = d :: after ∧
      isWordPart c.parens d = false := by
    cases between with
    | nil => exact ⟨',', _, rfl, by simp [isWordPart, hc.parens]; decide⟩
    | cons d between => exact ⟨d, _, rfl, isWordPart_of_isSpace (isGap_cons.mp hbetween.1).1 _⟩
  obtain ⟨d, after, hsplit, hd⟩ := hsplit
  refine ⟨rest, hends, ?_⟩
  rw [hgap, hsplit, run_constantName hc joinable' l.name hd, ← hsplit]
  exact run_blank rfl hbetween _

theorem step_comma_body (hc : c.ListsConstants) (claim : Option (List Claim)) :
    (t.inContext (c.body p left false claim)).step ',' = t.inContext (c.body p left false claim) := by
  have hcomma : (c.body p left false claim).comma = c.body p left false claim := by
    simp [Context.comma, Context.inEnumeration, Context.body, hc.braces, hc.inValue]
  rw [step_mark_inContext rfl (f := .comma) (by decide) (by decide) fun _ => rfl, hcomma]

theorem run_line (hc : c.ListsConstants) (left : Option String) (hp : p.node? t.scope.node = some home)
    {ps : List (ConstantLine × Option String)} (hhome : HoldsLines about ps home) (joinable : Bool)
    {l : ConstantLine} {cs : List Char} (hcs : l.Spelled cs) :
    ∃ s' home' joinable', s'.node = p.fillIn home' t.scope.node ∧ home'.key = home.key ∧
      HoldsLines about (ps ++ if l.isTaken left then [(l, left)] else []) home' ∧
      (t.inContext (c.body p left joinable none)).run cs =
        (t.inScope s').inContext (c.body (p.fill home') (l.leaves left) joinable' none) := by
  obtain ⟨rest, hends, hstart⟩ := run_lineStart (t := t) (p := p) hc left joinable hcs
  have hraw : ∀ raw ∈ l.raw?, raw ≠ "" := fun raw hmem =>
    bne_iff_ne.mp (Option.mem_filter_iff.mp hmem).2
  rw [hstart]
  cases htaken : l.isTaken left with
  | true =>
    obtain ⟨ins, hins, hkey, htake⟩ := hhome.take htaken
    have hpublic : (l.opening left).isPrivate = false := by
      rw [ConstantLine.isTaken, Bool.and_eq_true, Bool.not_eq_true'] at htaken
      exact htaken.2
    obtain ⟨s', hnode, hdeclare⟩ := OpenScope.declareConstant_taken (s := t.scope) hc hp false
      hpublic hins
    let home' := home.withChildren (ins.apply home.children)
    have hp' : (p.fill home').node? s'.node = some home' := by
      rw [hnode]
      exact Place.node?_fill hp home'
    let u := (t.inScope s').inContext
      (c.body (p.fill home') none false (some [.constant ins.position]))
    have hname : (t.inContext (c.body p left false none)).update (·.declareConstant l.name.text) = u :=
      congrArg (fun scope => { t with mode := .plain, scope }) hdeclare
    obtain ⟨line, joinable', hrest⟩ := run_ends (t := u) rfl hends
    obtain ⟨s'', hnode', hend⟩ := OpenScope.endLine_recorded (s := s') hc hp' ins.position hraw line
      joinable'
    let home'' := settle l.raw? ins.position home'
    rw [hnode, Place.fillIn_fill] at hnode'
    rw [Place.fill_fill] at hend
    have hleaves : l.leaves left = none := if_pos htaken
    refine ⟨s'', home'', joinable', hnode', hkey, htake, ?_⟩
    rw [hname, hleaves]
    change (u.step ',').run _ = _
    rw [step_comma_body hc, hrest]
    exact congrArg (fun scope => { t with mode := .plain, scope }) hend
  | false =>
    obtain ⟨s', hnode, hdeclare⟩ := OpenScope.declareConstant_refused (s := t.scope) (c := c) hp
      false (ConstantLine.refused htaken home)
    let u := (t.inScope s').inContext (c.body p none false none)
    have hname : (t.inContext (c.body p left false none)).update (·.declareConstant l.name.text) = u :=
      congrArg (fun scope => { t with mode := .plain, scope }) hdeclare
    obtain ⟨line, joinable', hrest⟩ := run_ends (t := u) rfl hends
    have hend := OpenScope.endLine_refused (s := s') (p := p) hc hraw line joinable'
    have hleaves : l.leaves left = l.raw? := if_neg (by simp [htaken])
    refine ⟨s', home, joinable', hnode.trans (Place.fillIn_self hp).symm, rfl, ?_, ?_⟩
    · simpa using hhome
    · rw [hname, hleaves, Place.fill_self hp]
      change (u.step ',').run _ = _
      rw [step_comma_body hc, hrest]
      exact congrArg (fun scope => { t with mode := .plain, scope }) hend

theorem run_lines (hc : c.ListsConstants) (left : Option String) (hp : p.node? t.scope.node = some home)
    {ps : List (ConstantLine × Option String)} (hhome : HoldsLines about ps home) (joinable : Bool)
    {ls : List ConstantLine} {cs : List Char} (hcs : LinesText ls cs) :
    ∃ s' home' left' joinable', s'.node = p.fillIn home' t.scope.node ∧ home'.key = home.key ∧
      HoldsLines about (ps ++ takenLines left ls) home' ∧
      (t.inContext (c.body p left joinable none)).run cs =
        (t.inScope s').inContext (c.body (p.fill home') left' joinable' none) := by
  induction hcs generalizing t p home left ps joinable with
  | @nil gap hgap =>
    obtain ⟨joinable', hread⟩ := run_gap_body (t := t) (c := c) (p := p) left joinable hgap []
    refine ⟨t.scope, home, left, joinable', (Place.fillIn_self hp).symm, rfl, ?_, ?_⟩
    · simpa [takenLines] using hhome
    · rw [Place.fill_self hp]
      rwa [List.append_nil] at hread
  | @cons l ls cs rest hl _ ih =>
    obtain ⟨s', home', joinable', hnode, hkey, hhome', hline⟩ := run_line hc left hp hhome joinable hl
    have hp' : (p.fill home').node? s'.node = some home' := by
      rw [hnode]
      exact Place.node?_fill hp home'
    obtain ⟨s'', home'', left', joinable'', hnode', hkey', hhome'', hlines⟩ :=
      ih (t := t.inScope s') (l.leaves left) hp' hhome' joinable'
    refine ⟨s'', home'', left', joinable'', ?_, hkey'.trans hkey, ?_, ?_⟩
    · rw [hnode', ← Place.fillIn_fill p home', ← hnode]
      rfl
    · simpa [takenLines] using hhome''
    · rw [run_append, hline, hlines, Place.fill_fill]
      rfl

end State

end HeaderDocs.Scan
