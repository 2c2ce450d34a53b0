import HeaderDocs.Proofs.Scan.MemberVariables

/-!
# Fields on lines of their own

In a record with one field a line, a comment behind the semicolon describes the field of its line. A
field without a public name is not recorded, and the comment behind it is used up all the same.

* `HoldsFields`: what the record holds after some lines.
* `State.run_fields`: reading the lines of a body.
-/
namespace HeaderDocs.Scan

open HeaderDocs.Text

/-! ## Lines -/

/-- A field with the comment behind its semicolon. -/
structure FieldLine extends MemberVariable where
  comment : Option SourceComment := none

namespace FieldLine

variable (l : FieldLine)

/-- The name of the field, and what stands behind the mark after it. -/
def ended : ConstantLine := { name := l.name, comment := l.comment }

/-- The text of the comment, if it says something. -/
def raw? : Option String := l.ended.raw?

def Spelled (cs : List Char) : Prop :=
  ∃ before declared rest, IsGap before ∧ l.toMemberVariable.Spelled declared ∧ l.ended.Ends rest ∧
    cs = before ++ (declared ++ (rest ++ ['\n']))

def toNode (access : Option String) : Node := (l.toMemberVariable.toNode access).describeIf l.raw?

/-- Whether the field is documented: it has a public name, and its comment does not hide it. -/
def isShown : Bool := Node.isRecordable l.name.text && !l.raw?.any Comment.isPrivate

theorem label?_toNode (access : Option String) :
    (l.toNode access).label? = some (.var, l.name.text) := by
  unfold toNode
  cases l.raw? <;> rfl

theorem hasScope_toNode (access : Option String) :
    (l.toNode access).hasScope = (l.toMemberVariable.toNode access).hasScope := by
  unfold toNode
  cases l.raw? <;> rfl

theorem children_toNode (access : Option String) : (l.toNode access).children =
    (l.type.toRun false).toType ::
      l.raw?.toList.map fun raw => Node.descriptionOf (Comment.normalize raw).text := by
  unfold toNode
  cases l.raw? with
  | none => rfl
  | some raw =>
    have hplain : ∀ c ∈ (l.toMemberVariable.toNode access).children, c.kind ≠ .description := by
      intro c hc
      rw [List.mem_singleton.mp hc]
      exact (by decide : Kind.typeExpr ≠ .description)
    rw [Node.describeIf, describe_undescribed (by decide : Kind.var ≠ .argument) hplain]
    rfl

theorem typeText_toNode (access : Option String) : (l.toNode access).typeText = l.type.text := by
  have hkind : (l.toNode access).kind = .var := Node.kind_of_label? (l.label?_toNode access)
  rw [Node.typeText, Node.child?, l.children_toNode, hkind, ← l.type.text_toRun false, ← Run.text_toType]
  rfl

theorem descriptionText_toNode (access : Option String) :
    (l.toNode access).descriptionText = (Comment.normalize (l.raw?.getD "")).text := by
  rw [Node.descriptionText, Node.child?, l.children_toNode]
  cases l.raw? with
  | none => rfl
  | some raw => exact Node.text_descriptionOf _

theorem raw?_ne_empty : ∀ raw ∈ l.raw?, raw ≠ "" := fun _ hraw =>
  bne_iff_ne.mp (Option.mem_filter_iff.mp hraw).2

end FieldLine

inductive FieldsText : List FieldLine → List Char → Prop
  | nil {gap : List Char} : IsGap gap → FieldsText [] gap
  | cons {l : FieldLine} {ls : List FieldLine} {cs rest : List Char} :
      l.Spelled cs → FieldsText ls rest → FieldsText (l :: ls) (cs ++ rest)

def lastField? (ls : List FieldLine) (name : String) : Option FieldLine :=
  ls.reverse.find? (·.name.text == name)

theorem lastField?_concat (ls : List FieldLine) (l : FieldLine) (name : String) :
    lastField? (ls ++ [l]) name = if l.name.text = name then some l else lastField? ls name := by
  unfold lastField?
  rw [List.reverse_concat, List.find?_cons]
  by_cases h : l.name.text = name
  · simp [h]
  · rw [if_neg h, beq_eq_false_iff_ne.mpr h]

/-! ## The record -/

/-- A record with its description, after lines of its body. -/
structure HoldsFields (about : String) (access : Option String) (ls : List FieldLine) (home : Node) :
    Prop where
  kept : home.Kept
  scope : home.kind.isScope = true
  /-- Of each name, the last line that has it says what the field is. -/
  mem_iff : ∀ n, n ∈ home.children ↔ n = Node.descriptionOf about ∨
    ∃ l, lastField? ls l.name.text = some l ∧ l.isShown = true ∧ n = l.toNode access

/-- The children of a scope when a node has been recorded and the comment of its line read. -/
theorem mem_children_settle {home node : Node} {ins : Node.Insertion}
    (hscope : Node.Arranged home.children) (hins : home.insertion? node = some ins)
    (hnode : ins.node = node) (raw? : Option String) (n : Node) :
    n ∈ (settle raw? ins.position (home.withChildren (ins.apply home.children))).children ↔
      raw?.any Comment.isPrivate = false ∧ n = node.describeIf raw? ∨
        n ∈ home.children ∧ n.label? ≠ node.label? := by
  have hrest := Node.mem_rest_iff (n := n) hscope hins
  have hposition := Node.Insertion.position_le hins
  have hmem : ∀ m, n ∈ (ins.rest home.children).insertIdx ins.position m ↔
      n = m ∨ n ∈ home.children ∧ n.label? ≠ node.label? := fun m => by
    rw [List.mem_insertIdx hposition, hrest]
  unfold settle
  cases raw? with
  | none =>
    have hall : n ∈ ins.apply home.children ↔ _ := hmem ins.node
    simpa [hnode, Node.describeIf, Node.withChildren] using hall
  | some raw =>
    dsimp only [Option.any_some]
    split
    · rename_i hprivate
      have hremoved : ((home.withChildren (ins.apply home.children)).removeAt
          [ins.position]).children = ins.rest home.children := List.eraseIdx_insertIdx_self ..
      rw [hremoved, hrest]
      simp [hprivate]
    · rename_i hpublic
      have hdescribed : ((home.withChildren (ins.apply home.children)).modifyAt (·.describe raw)
          [ins.position]).children =
            (ins.rest home.children).insertIdx ins.position (node.describe raw) := by
        rw [← hnode]
        exact modify_insertIdx_self (·.describe raw) ins.node _ _
      rw [hdescribed, hmem]
      simp [hpublic, Node.describeIf]

namespace HoldsFields

variable {about : String} {access : Option String} {ls : List FieldLine} {home : Node}

theorem nil (hkept : home.Kept) (hscope : home.kind.isScope = true)
    (hchildren : home.children = [Node.descriptionOf about]) :
    HoldsFields about access [] home :=
  ⟨hkept, hscope, fun n => by simp [hchildren, lastField?]⟩

/-- The field of one more line, recorded and described or taken out again by its comment. -/
theorem take (h : HoldsFields about access ls home) {l : FieldLine}
    (hname : Node.isRecordable l.name.text = true) :
    ∃ ins, home.insertion? (l.toMemberVariable.toNode access) = some ins ∧
      let home' := settle l.raw? ins.position (home.withChildren (ins.apply home.children))
      home'.key = home.key ∧ HoldsFields about access (ls ++ [l]) home' := by
  let node := l.toMemberVariable.toNode access
  have hscope : ∀ n ∈ home.children, n.hasScope = true → node.hasScope = true := by
    intro n hn hset
    rcases (h.mem_iff n).mp hn with rfl | ⟨l', -, -, rfl⟩
    · cases hset
    · rw [l'.hasScope_toNode] at hset
      exact hset
  obtain ⟨ins, hins, hnode⟩ := Node.exists_insertion?_of_hasScope (show node.name = some _ from rfl) hname hscope
  have harranged := h.kept.self.arranged h.scope
  have hnodeKept : node.Kept :=
    Node.Kept.congr (Declarator.kept_toNode (k := .var) l.toDeclarator rfl rfl) rfl rfl
  have hkind : node.kind ≠ .description := (by decide : Kind.var ≠ .description)
  obtain ⟨hkept, hkey⟩ := kept_settle (h.kept.insert hnodeKept h.scope hkind hins) l.raw? ins.position
  refine ⟨ins, hins, hkey, hkept, (Node.kind_eq_of_key hkey) ▸ h.scope, fun n => ?_⟩
  have hshown : l.isShown = true ↔ l.raw?.any Comment.isPrivate = false := by
    simp [FieldLine.isShown, hname]
  have hother : ∀ l' : FieldLine, (l'.toNode access).label? ≠ node.label? ↔
      l.name.text ≠ l'.name.text := fun l' => by
    rw [l'.label?_toNode, show node.label? = some (.var, l.name.text) from rfl]
    simp [eq_comm]
  rw [mem_children_settle harranged hins hnode l.raw? n, h.mem_iff]
  constructor
  · rintro (⟨hpublic, rfl⟩ | ⟨rfl | ⟨l', hlast, hl', rfl⟩, hlabel⟩)
    · exact .inr ⟨l, by rw [lastField?_concat, if_pos rfl], hshown.mpr hpublic, rfl⟩
    · exact .inl rfl
    · refine .inr ⟨l', ?_, hl', rfl⟩
      rw [lastField?_concat, if_neg ((hother l').mp hlabel), hlast]
  · rintro (rfl | ⟨l', hlast, hl', rfl⟩)
    · exact .inr ⟨.inl rfl, nofun⟩
    · rw [lastField?_concat] at hlast
      split at hlast
      · obtain rfl := Option.some.inj hlast
        exact .inl ⟨hshown.mp hl', rfl⟩
      · rename_i hname'
        exact .inr ⟨.inr ⟨l', hlast, hl', rfl⟩, (hother l').mpr hname'⟩

/-- A field without a public name leaves the record as it is. -/
theorem pass (h : HoldsFields about access ls home) {l : FieldLine}
    (hname : Node.isRecordable l.name.text = false) : HoldsFields about access (ls ++ [l]) home := by
  refine ⟨h.kept, h.scope, fun n => ?_⟩
  have hsame : ∀ l' : FieldLine, l'.isShown = true →
      (lastField? (ls ++ [l]) l'.name.text = some l' ↔ lastField? ls l'.name.text = some l') := by
    intro l' hl'
    have hne : l.name.text ≠ l'.name.text := by
      rintro he
      rw [FieldLine.isShown, ← he, hname] at hl'
      cases hl'
    rw [lastField?_concat, if_neg hne]
  rw [h.mem_iff]
  refine or_congr_right (exists_congr fun l' => ?_)
  constructor
  · rintro ⟨hlast, hl', hn⟩
    exact ⟨(hsame l' hl').mpr hlast, hl', hn⟩
  · rintro ⟨hlast, hl', hn⟩
    exact ⟨(hsame l' hl').mp hlast, hl', hn⟩

theorem ascending (h : HoldsFields about access ls home) :
    (home.children.filterMap (·.name)).Pairwise (· < ·) := by
  refine ascending_of_arranged (h.kept.self.arranged h.scope) .var fun n hn hname => ?_
  rcases (h.mem_iff n).mp hn with rfl | ⟨l, -, -, rfl⟩
  · exact absurd rfl hname
  · exact Node.kind_of_label? (l.label?_toNode access)

theorem descriptionText (h : HoldsFields about access ls home) : home.descriptionText = about := by
  have hmem : Node.descriptionOf about ∈ home.children := (h.mem_iff _).mpr (.inl rfl)
  cases hchild : home.child? .description with
  | none => exact absurd rfl (List.find?_eq_none.mp hchild _ hmem)
  | some d =>
    have hkind : d.kind = .description := by simpa [Node.isKind] using List.find?_some hchild
    have hd : d = Node.descriptionOf about := by
      rcases (h.mem_iff d).mp (List.mem_of_find?_eq_some hchild) with hd | ⟨l, -, -, rfl⟩
      · exact hd
      · cases (Node.kind_of_label? (l.label?_toNode access)).symm.trans hkind
    rw [Node.descriptionText, hchild, hd]
    exact Node.text_descriptionOf about

end HoldsFields

/-! ## Reading the lines -/

namespace OpenScope

variable {s : OpenScope} {c : Context}

/-- A comment behind a declaration that has been recorded in the scope. -/
theorem takeComment_claimed (hc : c.Declares) (i : Nat) {raw : String} (hraw : raw ≠ "")
    (line : Bool) :
    ∃ s' : OpenScope, s'.node = settle (some raw) i s.node ∧ s.SamePlace s' ∧
      ({ s with context := { c with claim := some [.recorded [i]] } } :
        OpenScope).takeComment raw line = { s' with context := { c with claim := none } } := by
  let u : OpenScope := { s with context := { c with claim := some [.recorded [i]] } }
  have htake : u.takeComment raw line = u.settleClaims raw [.recorded [i]] := by
    unfold takeComment
    rw [if_neg (by simpa using hraw)]
  have hjoinable := hc.joinable
  change ∃ s', _ ∧ _ ∧ u.takeComment raw line = _
  rw [htake]
  unfold settleClaims settle
  dsimp only
  split
  · let t : OpenScope := { s with context := { c with claim := some [] } }
    have hcontext : (t.removeAt [i]).context = t.context := by
      unfold removeAt
      split
      · simp [mapContexts, Context.afterRemove, t, hc.header, hc.record, hc.enumeration]
      · rfl
    obtain ⟨ho, ha, hs⟩ := samePlace_removeAt t [i]
    refine ⟨t.removeAt [i], node_removeAt t [i], ⟨ho, ha, hs⟩, ?_⟩
    change (t.removeAt [i]).update _ = _
    rw [update, hcontext]
    simp [t, hjoinable]
  · refine ⟨s.modifyAt (·.describe raw) [i], rfl, ⟨rfl, rfl, id⟩, ?_⟩
    simp [u, describeClaim, modifyAt, update, hjoinable]

theorem takeComment_usedUp (hc : c.Declares) {raw : String} (hraw : raw ≠ "") (line : Bool) :
    ({ s with context := { c with claim := some [] } } : OpenScope).takeComment raw line =
      { s with context := { c with claim := none } } := by
  have hjoinable := hc.joinable
  unfold takeComment settleClaims
  rw [if_neg (by simpa using hraw)]
  dsimp only
  split <;> simp [withdrawFirst, update, hjoinable]

theorem endLine_claimed (hc : c.Declares) (i? : Option Nat) {raw? : Option String}
    (hraw : ∀ raw ∈ raw?, raw ≠ "") (line joinable : Bool) :
    ∃ s' : OpenScope, s'.node = i?.elim s.node (settle raw? · s.node) ∧ s.SamePlace s' ∧
      (({ s with context := { c with claim := claimOn (i?.map ([·])) } } : OpenScope).takeComment
          (raw?.getD "") line).update ({ · with claim := none, joinable }) =
        { s' with context := { c with claim := none, joinable } } := by
  cases raw? with
  | none => exact ⟨s, by cases i? <;> rfl, ⟨rfl, rfl, id⟩, rfl⟩
  | some raw =>
    have hne := hraw raw rfl
    cases i? with
    | none =>
      refine ⟨s, rfl, ⟨rfl, rfl, id⟩, ?_⟩
      rw [Option.getD_some, show claimOn (none.map ([·])) = some [] from rfl,
        takeComment_usedUp hc hne line]
      rfl
    | some i =>
      obtain ⟨s', hnode, hplace, htake⟩ := takeComment_claimed (s := s) hc i hne line
      refine ⟨s', hnode, hplace, ?_⟩
      rw [Option.getD_some, show claimOn ((some i).map ([·])) = some [.recorded [i]] from rfl, htake]
      rfl

end OpenScope

namespace State

variable {t : State} {about : String} {access : Option String} {ls : List FieldLine}

/-- What recording the field of one more line comes to, with the comment of its line. -/
theorem exists_taken (hhome : HoldsFields about access ls t.scope.node) {l : FieldLine}
    {s : OpenScope} (hgains : t.scope.Gains (l.toMemberVariable.toNode access) s) :
    ∃ i? : Option Nat, recordedAt t.scope.node (l.toMemberVariable.toNode access) = i?.map ([·]) ∧
      (i?.elim s.node (settle l.raw? · s.node)).key = t.scope.node.key ∧
      HoldsFields about access (ls ++ [l]) (i?.elim s.node (settle l.raw? · s.node)) := by
  let node := l.toMemberVariable.toNode access
  have hpublic : node.isPrivate = false := l.isPrivate_toNode access
  have hat : recordedAt t.scope.node node = (t.scope.node.insertion? node).map ([·.position]) :=
    if_neg (by simp [hpublic])
  cases hname : Node.isRecordable l.name.text with
  | true =>
    obtain ⟨ins, hins, hkey, htaken⟩ := hhome.take hname
    have hnode : s.node = t.scope.node.withChildren (ins.apply t.scope.node.children) :=
      hgains.node.trans (record_of_insertion? hpublic hins)
    rw [← hnode] at hkey htaken
    exact ⟨some ins.position, by rw [hat, hins]; rfl, hkey, htaken⟩
  | false =>
    have hrefused : t.scope.node.insertion? node = none := by
      refine Option.map_eq_none_iff.mp ((Node.insert?_eq_none_iff _ node).mpr fun name he => ?_)
      exact Option.some.inj he ▸ hname
    have hnode : s.node = t.scope.node := hgains.node.trans (record_of_not_recordable rfl hname)
    exact ⟨none, by rw [hat, hrefused]; rfl, by rw [hnode]; rfl, hnode ▸ hhome.pass hname⟩

theorem run_field (hkind : t.scope.node.kind ≠ .root)
    (hhome : HoldsFields about access ls t.scope.node) (joinable : Bool) {l : FieldLine}
    {cs : List Char} (hcs : l.Spelled cs) :
    ∃ s joinable', t.scope.SamePlace s ∧ s.node.key = t.scope.node.key ∧
      HoldsFields about access (ls ++ [l]) s.node ∧
      (t.inContext { access, joinable }).run cs =
        (t.inScope s).inContext { access, joinable := joinable' } := by
  obtain ⟨before, declared, rest, hbefore, hdeclared, hends, rfl⟩ := hcs
  obtain ⟨joinable₁, hgap⟩ := run_gap_joinable (t := t) (c := { access }) rfl joinable hbefore
    (declared ++ (rest ++ ['\n']))
  obtain ⟨s, hgains, hread⟩ := run_variable hkind l.toMemberVariable hdeclared access joinable₁ none
    (rest ++ ['\n'])
  obtain ⟨i?, hat, hkey, htaken⟩ := exists_taken hhome hgains
  rw [hat] at hread
  obtain ⟨line, joinable₂, hrest⟩ := run_ends (t := (t.inScope s).inContext
    { access, claim := OpenScope.claimOn (i?.map ([·])) }) rfl hends
  obtain ⟨s', hnode, hplace, hend⟩ := OpenScope.endLine_claimed (s := s) (c := { access })
    ⟨rfl, rfl, rfl, rfl, rfl, rfl⟩ i? l.raw?_ne_empty line joinable₂
  rw [← hnode] at hkey htaken
  refine ⟨s', joinable₂, hgains.samePlace.trans hplace, hkey, htaken, ?_⟩
  refine hgap.trans (hread.trans (hrest.trans ?_))
  exact congrArg (fun scope => ({ t with mode := .plain, scope } : State)) hend

theorem run_fields (hkind : t.scope.node.kind ≠ .root)
    (hhome : HoldsFields about access ls t.scope.node) (joinable : Bool) {fields : List FieldLine}
    {cs : List Char} (hcs : FieldsText fields cs) :
    ∃ s joinable', t.scope.SamePlace s ∧ s.node.key = t.scope.node.key ∧
      HoldsFields about access (ls ++ fields) s.node ∧
      (t.inContext { access, joinable }).run cs =
        (t.inScope s).inContext { access, joinable := joinable' } := by
  induction hcs generalizing t ls joinable with
  | @nil gap hgap =>
    obtain ⟨joinable', hread⟩ := run_gap_joinable (t := t) (c := { access }) rfl joinable hgap []
    rw [List.append_nil] at hread
    exact ⟨t.scope, joinable', ⟨rfl, rfl, id⟩, rfl, by simpa using hhome, hread⟩
  | @cons l fields cs rest hl _ ih =>
    obtain ⟨s, joinable₁, hplace, hkey, hhome', hline⟩ := run_field hkind hhome joinable hl
    obtain ⟨s', joinable₂, hplace', hkey', hhome'', hlines⟩ := ih (t := t.inScope s)
      (by rwa [show (t.inScope s).scope.node.kind = t.scope.node.kind from Node.kind_eq_of_key hkey])
      hhome' joinable₁
    refine ⟨s', joinable₂, hplace.trans hplace', hkey'.trans hkey, by simpa using hhome'', ?_⟩
    rw [run_append, hline, hlines]
    rfl

end State

end HeaderDocs.Scan
